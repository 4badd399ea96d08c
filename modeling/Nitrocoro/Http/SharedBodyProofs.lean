import Nitrocoro.Http.BodyReaderProofs
import Nitrocoro.Http.SharedBody

/-! A body that is shared between readers and a drain is taken from the connection once and in
order, and the server goes on behind its last byte. -/
namespace Nitrocoro.Http
open Text Transition Loop ChunkedReader
open List hiding after

namespace Job
variable {job : Job} {impl : BodyReaderImpl} {c : Source}

def rest : Job → BodyReaderImpl → Source → Except Exn (Bytes × BodyReaderImpl × Source)
  | .enter len, impl, c | .sizeLine len, impl, c | .data len, impl, c => impl.readImpl len c
  | .trailer lines, .chunked _, c => do
    let c ← Loop.run skipTrailer_decreases (lines, c)
    .ok ([], .chunked { state := .complete }, c)
  | .crlf bytes, .chunked r, c => do
    let c ← skipCRLF c
    .ok (bytes, .chunked { r with state := .readSize }, c)
  | _, impl, c => .ok ([], impl, c)

def Fits : Job → BodyReaderImpl → Prop
  | .enter _, impl => impl.isComplete = false
  | .sizeLine _, impl => ∃ r, impl = .chunked r ∧ r.state = .readSize
  | .trailer _, impl => impl = .chunked ⟨.readSize, 0, 0⟩
  | .data _, impl => ∃ r, impl = .chunked r ∧ r.state = .readData
  | .crlf _, impl => ∃ r, impl = .chunked r ∧ r.state = .readData

/-- The server sees no complete body while a coroutine is inside `readImpl`. -/
theorem Fits.isComplete (fits : job.Fits impl) : impl.isComplete = false := by
  cases job with
  | enter => exact fits
  | trailer =>
    obtain rfl := fits
    rfl
  | sizeLine | data | crlf =>
    obtain ⟨r, rfl, state⟩ := fits
    simp [BodyReaderImpl.isComplete, state]

/-- A step does a part of the work, or it returns what all of the work gives. -/
def Keeps (result : Bytes × BodyReaderImpl × Source) : Progress → Prop
  | .goes job impl c => job.Fits impl ∧ job.rest impl c = .ok result
  | .returns returned impl c => returned = .ok result.1 ∧ impl = result.2.1 ∧ c = result.2.2

theorem keeps_enter (fits : (enter len).Fits impl) (works : (enter len).rest impl c = .ok result) :
    Keeps result ((enter len).step impl c) := by
  have once : impl.readImpl len c = .ok result := works
  cases impl with
  | chunked r =>
    obtain ⟨state, size, got⟩ := r
    cases state with
    | complete => cases fits
    | readSize | readData => exact ⟨⟨_, rfl, rfl⟩, works⟩
  | noop | contentLength | untilClose =>
    simp only [step, readOnce, once]
    exact ⟨rfl, rfl, rfl⟩

theorem readImpl_data (state : r.state = .readData) :
    BodyReaderImpl.readImpl len (.chunked r) c = .ok result ↔
      ∃ s, readData len r c = .ok (result.1, s, result.2.2) ∧
        result.2.1 = .chunked s := by
  obtain ⟨-, -, d⟩ := result
  simp only [BodyReaderImpl.readImpl, readImpl, state, bind_eq_ok]
  constructor
  · rintro ⟨⟨bytes', s, e⟩, read, same⟩
    cases same
    exact ⟨s, read, rfl⟩
  · rintro ⟨s, read, rfl⟩
    exact ⟨_, read, rfl⟩

theorem readImpl_size (state : r.state = .readSize)
    (works : BodyReaderImpl.readImpl len (.chunked r) c = .ok result) :
    ∃ s d, parseChunkSize c = .ok (s, d) ∧
      ((s.state = .complete ∧ result = ([], .chunked s, d)) ∨
        (s.state ≠ .complete ∧ ∃ t, readData len s d = .ok (result.1, t, result.2.2) ∧
          result.2.1 = .chunked t)) := by
  simp only [BodyReaderImpl.readImpl, readImpl, state, bind_eq_ok] at works
  obtain ⟨⟨bytes, t, e⟩, ⟨⟨s, d⟩, parsed, read⟩, same⟩ := works
  refine ⟨s, d, parsed, ?_⟩
  cases same
  split at read
  · rename_i complete
    cases read
    exact .inl ⟨complete, rfl⟩
  · rename_i open_
    exact .inr ⟨open_, t, read, rfl⟩

theorem keeps_startChunk (state : r.state = .readSize)
    (parsed : ChunkedReader.startChunk pos c = .ok (s, d))
    (outcome : s.state = .complete ∧ result = ([], .chunked s, d) ∨
      s.state ≠ .complete ∧ ∃ t, ChunkedReader.readData len s d = .ok (result.1, t, result.2.2) ∧
        result.2.1 = .chunked t) :
    Keeps result (startChunk len pos r c) := by
  obtain ⟨_, size, got⟩ := r
  obtain rfl := state
  obtain ⟨short, size', read, ⟨zero, skipped, rfl⟩ | ⟨some, rfl, rfl⟩⟩ :=
    ChunkedReader.startChunk_ok parsed
  · simp only [startChunk, if_neg short, read, if_pos zero]
    refine ⟨by rw [zero]; rfl, ?_⟩
    rcases outcome with ⟨-, rfl⟩ | ⟨open_, -⟩
    · rw [skipTrailer] at skipped
      simp [rest, skipped, bind, Except.bind]
    · exact absurd rfl open_
  · simp only [startChunk, if_neg short, read, if_neg some]
    refine ⟨⟨_, rfl, rfl⟩, ?_⟩
    rcases outcome with ⟨complete, -⟩ | ⟨-, t, data, final⟩
    · cases complete
    · exact (readImpl_data rfl).mpr ⟨t, data, final⟩

theorem keeps_sizeLine (state : r.state = .readSize)
    (works : (sizeLine len).rest (.chunked r) c = .ok result) :
    Keeps result (stepSizeLine len r c) := by
  simp only [stepSizeLine]
  cases round : ChunkedReader.sizeLine.round c with
  | inl d =>
    have same : ChunkedReader.sizeLine.awaitLine c = ChunkedReader.sizeLine.awaitLine d :=
      run_inl _ round
    refine ⟨⟨r, rfl, state⟩, ?_⟩
    simpa only [rest, BodyReaderImpl.readImpl, readImpl, state, parseChunkSize, same] using works
  | inr ended =>
    have waits : ChunkedReader.sizeLine.awaitLine c = ended := run_inr _ round
    obtain ⟨s, d, parsed, outcome⟩ := readImpl_size state works
    simp only [parseChunkSize, waits] at parsed
    obtain ⟨ending, e⟩ := ended
    cases ending with
    | tooLong | closed => cases parsed
    | found pos => exact keeps_startChunk state parsed outcome

theorem keeps_trailer (works : (trailer lines).rest (.chunked ⟨.readSize, 0, 0⟩) c = .ok result) :
    Keeps result (stepTrailer lines ⟨.readSize, 0, 0⟩ c) := by
  obtain ⟨d, skipped, same⟩ := bind_eq_ok.mp works
  cases same
  simp only [stepTrailer]
  cases round : ChunkedReader.trailerLine.round c with
  | inl e =>
    have waits : ChunkedReader.trailerLine.awaitLine c = ChunkedReader.trailerLine.awaitLine e :=
      run_inl _ round
    have same :
        skipTrailerRound (lines, c) = skipTrailerRound (lines, e) := by
      simp only [skipTrailerRound, waits]
    rw [run_congr _ same] at skipped
    refine ⟨rfl, ?_⟩
    simp [rest, skipped, bind, Except.bind]
  | inr ended =>
    have waits : ChunkedReader.trailerLine.awaitLine c = ended := run_inr _ round
    obtain ⟨ending, e⟩ := ended
    cases ending with
    | tooLong | closed =>
      rw [run_inr _ (by simp only [skipTrailerRound, waits]; rfl)] at skipped
      cases skipped
    | found pos =>
      dsimp only
      by_cases last : pos = 0
      · have leaves :
            skipTrailerRound (lines, c) = .inr (.ok (e.consume (pos + 2))) := by
          simp only [skipTrailerRound, waits, if_pos last]
        rw [run_inr _ leaves] at skipped
        cases skipped
        rw [if_pos last]
        exact ⟨rfl, rfl, rfl⟩
      · by_cases many : 128 < lines + 1
        · rw [run_inr _ (by
            simp only [skipTrailerRound, waits, if_neg last, if_pos many]
            rfl)] at skipped
          cases skipped
        have goes : skipTrailerRound (lines, c)
            = .inl (lines + 1, e.consume (pos + 2)) := by
          simp only [skipTrailerRound, waits, if_neg last, if_neg many]
        rw [run_inl _ goes] at skipped
        rw [if_neg last, if_neg many]
        refine ⟨rfl, ?_⟩
        simp [rest, skipped, bind, Except.bind]

theorem keeps_data (state : r.state = .readData)
    (works : (data len).rest (.chunked r) c = .ok result) : Keeps result (stepData len r c) := by
  obtain ⟨s, read, final⟩ := (readImpl_data state).mp works
  obtain ⟨bytes, impl, d⟩ := result
  dsimp only at read final
  subst final
  obtain ⟨e, taken, ⟨whole, skipped, rfl⟩ | ⟨part, rfl, rfl⟩⟩ := readData_ok read
  · simp only [stepData, taken, if_pos whole]
    refine ⟨⟨_, rfl, state⟩, ?_⟩
    simp [rest, skipped, bind, Except.bind]
  · simp only [stepData, taken, if_neg part]
    exact ⟨rfl, rfl, rfl⟩

theorem keeps_crlf (state : r.state = .readData)
    (works : (crlf bytes).rest (.chunked r) c = .ok result) : Keeps result (stepCrlf bytes r c) := by
  obtain ⟨d, skipped, same⟩ := bind_eq_ok.mp works
  cases same
  simp only [stepCrlf]
  split
  · rename_i e goes
    refine ⟨⟨_, rfl, state⟩, ?_⟩
    rw [skipCRLF, run_inl _ goes] at skipped
    simp [rest, skipCRLF, skipped, bind, Except.bind]
  · rename_i e leaves
    rw [skipCRLF, run_inr _ leaves] at skipped
    cases skipped
  · rename_i e leaves
    rw [skipCRLF, run_inr _ leaves] at skipped
    cases skipped
    exact ⟨rfl, rfl, rfl⟩

theorem keeps_step (fits : job.Fits impl) (works : job.rest impl c = .ok result) :
    Keeps result (job.step impl c) := by
  cases job with
  | enter len => exact keeps_enter fits works
  | trailer lines =>
    obtain rfl := fits
    exact keeps_trailer works
  | sizeLine len =>
    obtain ⟨r, rfl, state⟩ := fits
    exact keeps_sizeLine state works
  | data len =>
    obtain ⟨r, rfl, state⟩ := fits
    exact keeps_data state works
  | crlf bytes =>
    obtain ⟨r, rfl, state⟩ := fits
    exact keeps_crlf state works

end Job

namespace SharedBody
variable {tail body : Bytes} {s t : State} {caller : Caller}

/-- The calls that have not returned, in the order in which they get the lock. -/
def State.line (s : State) : List Caller := (s.holder.map Prod.fst).toList ++ s.queue

/-- What was taken of the body and what is left of it make up the body. -/
def Settled (tail body : Bytes) (s : State) : Prop :=
  ∃ left, Carries tail s.impl s.source left ∧ s.taken ++ left = body

/-- The same for when the coroutine at `job` will be through with its `readImpl`. -/
def Busy (tail body : Bytes) (job : Job) (s : State) : Prop :=
  ∃ bytes impl c left, job.Fits s.impl ∧ job.rest s.impl s.source = .ok (bytes, impl, c) ∧
    Carries tail impl c left ∧ s.taken ++ (bytes ++ left) = body ∧ (bytes = [] → impl.isComplete)

def Accounted (tail body : Bytes) (s : State) : Prop :=
  match s.holder with
  | some (_, .reading job) => Busy tail body job s
  | _ => Settled tail body s

/-- A late read finds the body drained or complete when its turn comes. -/
def Ordered (line : List Caller) (s : State) : Prop :=
  ∀ before len after, line = before ++ .read len true :: after →
    s.draining = true ∨ s.impl.isComplete = true ∨ .drain ∈ before

structure Inv (tail body : Bytes) (s : State) : Prop where
  accounted : Accounted tail body s
  free : s.holder = none → s.queue = []
  drains : s.line.count .drain = if s.server = .draining then 1 else 0
  drained : ∀ phase, s.holder = some (.drain, phase) → phase = .granted ∨ s.draining = true
  loops : ∀ caller, s.holder = some (caller, .looping) → caller = .drain
  reads : ∀ len late job, s.holder = some (.read len late, .reading job) → late = false
  serves : s.server ≠ .aborted ∧ (s.server = .next → s.impl.isComplete = true)
  ordered : Ordered s.line s
  results : ∀ result, (true, result) ∈ s.returned → result = .ok []

theorem Inv.unlock (settled : Settled tail body s)
    (drains : s.queue.count .drain = if s.server = .draining then 1 else 0)
    (serves : s.server ≠ .aborted ∧ (s.server = .next → s.impl.isComplete = true))
    (ordered : Ordered s.queue s) (results : ∀ result, (true, result) ∈ s.returned → result = .ok []) :
    Inv tail body s.unlock := by
  obtain ⟨impl, source, draining, holder, queue, server, taken, returned⟩ := s
  cases queue with
  | nil => exact ⟨settled, fun _ => rfl, drains, nofun, nofun, nofun, serves, ordered, results⟩
  | cons caller queue =>
    refine ⟨settled, nofun, drains, ?_, ?_, ?_, serves, ordered, results⟩
    · rintro phase ⟨⟩
      exact .inl rfl
    · rintro caller ⟨⟩
    · rintro len late job ⟨⟩

theorem Ordered.concat (ordered : Ordered line s)
    (late : ∀ len, caller = .read len true → s.draining = true ∨ s.impl.isComplete = true ∨
      .drain ∈ line) : Ordered (line ++ [caller]) s := by
  intro before len after split
  rcases eq_nil_or_concat after with rfl | ⟨init, last, rfl⟩
  · obtain ⟨rfl, same⟩ := append_inj' split rfl
    exact late len (cons.inj same).1
  · rw [concat_eq_append, ← cons_append, ← append_assoc] at split
    exact ordered before len init (append_inj' split rfl).1

theorem Inv.lock (inv : Inv tail body s) (server : Server)
    (drains : (s.line ++ [caller]).count .drain = if server = .draining then 1 else 0)
    (serves : server ≠ .aborted ∧ (server = .next → s.impl.isComplete = true))
    (late : ∀ len, caller = .read len true → s.draining = true ∨ s.impl.isComplete = true ∨
      .drain ∈ s.line) : Inv tail body ({ s with server }.lock caller) := by
  have ordered := inv.ordered.concat late
  obtain ⟨accounted, free, -, drained, loops, reads, -, -, results⟩ := inv
  obtain ⟨impl, source, draining, holder, queue, _, taken, returned⟩ := s
  cases holder with
  | none =>
    obtain rfl : queue = [] := free rfl
    refine ⟨accounted, nofun, drains, ?_, ?_, ?_, serves, ordered, results⟩
    · rintro phase ⟨⟩
      exact .inl rfl
    · rintro caller ⟨⟩
    · rintro len late job ⟨⟩
  | some held =>
    refine ⟨?_, nofun, drains, drained, loops, reads, serves, ordered, results⟩
    obtain ⟨by_, phase⟩ := held
    cases phase <;> exact accounted

theorem Inv.drain_mem (inv : Inv tail body s) : .drain ∈ s.line ↔ s.server = .draining := by
  rw [← count_pos_iff, inv.drains]
  split
  · exact iff_of_true Nat.one_pos ‹_›
  · exact iff_of_false (Nat.lt_irrefl 0) ‹_›

theorem Inv.read (inv : Inv tail body s) (len : ℕ+) :
    Inv tail body (s.lock (.read len (s.server ≠ .handling))) := by
  apply Inv.lock inv s.server _ inv.serves
  · intro len' same
    have called : s.server ≠ .handling := by simpa using (Caller.read.inj same).2
    cases server : s.server with
    | handling => exact absurd server called
    | draining => exact .inr (.inr (inv.drain_mem.mpr server))
    | next => exact .inr (.inl (inv.serves.2 server))
    | aborted => exact absurd server inv.serves.1
  · rw [count_append, inv.drains]
    simp

theorem Inv.check (inv : Inv tail body s) (handling : s.server = .handling) :
    Inv tail body (if s.impl.isComplete then { s with server := .next }
      else { s with server := .draining }.lock .drain) := by
  have none : s.line.count .drain = 0 := by rw [inv.drains, handling]; rfl
  split
  · rename_i complete
    exact { inv with drains := none, serves := ⟨nofun, fun _ => complete⟩ }
  · apply Inv.lock inv .draining _ ⟨by decide, nofun⟩
    · rintro len ⟨⟩
    rw [count_append, none]
    rfl

/-- A coroutine that gets into `readImpl` will come out of it with the front of what is left. -/
theorem Settled.busy (settled : Settled tail body s) (unfinished : s.impl.isComplete = false)
    (asked : 0 < len) : Busy tail body (.enter len) s := by
  obtain ⟨left, carries, whole⟩ := settled
  obtain ⟨bytes, impl, c, rest, done, rfl, carries, ends⟩ := carries.readImpl unfinished asked
  exact ⟨bytes, impl, c, rest, unfinished, done, carries, whole, ends⟩

theorem Ordered.behind {first : Caller} (ordered : Ordered (first :: line) s)
    (other : first ≠ .drain ∨ s.draining = true) : Ordered line s := by
  intro before len after split
  rcases ordered (first :: before) len after (by rw [split]; rfl) with drained | complete | mem
  · exact .inl drained
  · exact .inr (.inl complete)
  · rcases other with other | drained
    · exact .inr (.inr ((mem_cons.mp mem).resolve_left other.symm))
    · exact .inl drained

theorem Ordered.update (ordered : Ordered line s) (unfinished : s.impl.isComplete = false)
    (same : t.draining = s.draining) : Ordered line t := by
  intro before len after split
  rw [same]
  rcases ordered before len after split with drained | complete | mem
  · exact .inl drained
  · rw [unfinished] at complete
    cases complete
  · exact .inr (.inr mem)

section
variable (inv : Inv tail body s)
include inv

theorem Inv.finishRead (held : s.holder = some (.read len late, phase))
    (settled : Settled tail body { s with impl, source, taken })
    (kept : (impl = s.impl) ∨ s.impl.isComplete = false) (right : late = true → result = .ok []) :
    Inv tail body ({ s with impl, source, taken }.finishRead late result) := by
  have line : s.line = .read len late :: s.queue := by rw [State.line, held]; rfl
  have drains := inv.drains
  have ordered := inv.ordered
  rw [line] at drains ordered
  refine Inv.unlock (s := { s with impl, source, taken, returned := _ }) settled ?_ ?_ ?_ ?_
  · simpa using drains
  · refine ⟨inv.serves.1, fun next => ?_⟩
    rcases kept with rfl | unfinished
    · exact inv.serves.2 next
    · have complete := inv.serves.2 next
      rw [unfinished] at complete
      cases complete
  · have ordered := ordered.behind (.inl nofun)
    rcases kept with rfl | unfinished
    · exact ordered
    · exact ordered.update unfinished rfl
  · intro other mem
    rcases mem_append.mp mem with old | new
    · exact inv.results other old
    · obtain ⟨isLate, rfl⟩ := Prod.mk.inj (mem_singleton.mp new)
      exact right isLate.symm

theorem Inv.finishDrain (held : s.holder = some (.drain, phase))
    (drained : s.draining = true) (settled : Settled tail body { s with impl, source, taken })
    (complete : impl.isComplete) :
    Inv tail body ({ s with impl, source, taken }.finishDrain .next) := by
  have line : s.line = .drain :: s.queue := by rw [State.line, held]; rfl
  have none : s.queue.count .drain = 0 := by
    have drains := inv.drains
    rw [if_pos (inv.drain_mem.mp (by rw [line]; exact mem_cons_self)), line] at drains
    simpa using drains
  exact Inv.unlock (s := { s with impl, source, taken, server := .next }) settled none
    ⟨nofun, fun _ => complete⟩ (fun _ _ _ _ => .inl drained) inv.results

theorem Inv.advance (held : s.holder = some (caller, before)) (accounted : Accounted tail body
      { s with impl, source, taken, draining, holder := some (caller, after) })
    (drained : caller = .drain → draining = true) (rises : s.draining = true → draining = true)
    (loops : after = .looping → caller = .drain)
    (reads : ∀ len late job, caller = .read len late → after = .reading job → late = false)
    (kept : impl = s.impl ∨ s.impl.isComplete = false) :
    Inv tail body { s with impl, source, taken, draining, holder := some (caller, after) } := by
  have line : State.line { s with impl, source, taken, draining, holder := some (caller, after) }
      = s.line := by
    rw [State.line, State.line, held]
    rfl
  refine ⟨accounted, nofun, by rw [line]; exact inv.drains, ?_, ?_, ?_, ?_, ?_, inv.results⟩
  · rintro phase ⟨⟩
    exact .inr (drained rfl)
  · rintro caller ⟨⟩
    exact loops rfl
  · rintro len late job ⟨⟩
    exact reads len late job rfl rfl
  · refine ⟨inv.serves.1, fun next => ?_⟩
    have complete := inv.serves.2 next
    rcases kept with rfl | unfinished
    · exact complete
    · rw [unfinished] at complete
      cases complete
  rw [line]
  intro earlier len later split
  rcases inv.ordered earlier len later split with drained | complete | mem
  · exact .inl (rises drained)
  · rcases kept with rfl | unfinished
    · exact .inr (.inl complete)
    · rw [unfinished] at complete
      cases complete
  · exact .inr (.inr mem)

theorem Inv.runJob (held : s.holder = some (caller, .reading job)) :
    Inv tail body (s.runJob caller job) := by
  have busy : Busy tail body job s := by
    have accounted := inv.accounted
    rw [Accounted, held] at accounted
    exact accounted
  obtain ⟨bytes, impl, c, left, fits, works, carries, whole, ends⟩ := busy
  have drained : caller = .drain → s.draining = true := by
    rintro rfl
    exact (inv.drained _ held).resolve_left nofun
  have unfinished := fits.isComplete
  have keeps := Job.keeps_step fits works
  unfold State.runJob
  split
  · rename_i job' impl' c' took
    rw [took] at keeps
    obtain ⟨fits', works'⟩ := keeps
    refine inv.advance held ?_ drained id nofun ?_ (.inr unfinished)
    · exact ⟨bytes, impl, c, left, fits', works', carries, whole, ends⟩
    · rintro len late job'' rfl -
      exact inv.reads len late job held
  · rename_i result impl' c' took
    rw [took] at keeps
    obtain ⟨rfl, rfl, rfl⟩ := keeps
    have settled : Settled tail body
        { s with impl := impl', source := c', taken := s.taken ++ bytes } :=
      ⟨left, carries, by rw [append_assoc]; exact whole⟩
    cases caller with
    | read len late =>
      apply inv.finishRead held settled (.inr unfinished)
      intro isLate
      rw [inv.reads len late job held] at isLate
      cases isLate
    | drain =>
      cases bytes with
      | nil => exact inv.finishDrain held (drained rfl) settled (ends rfl)
      | cons b bytes =>
        exact inv.advance held settled drained id (fun _ => rfl) nofun (.inr unfinished)

theorem Inv.settled
    (idle : ∀ caller job, s.holder ≠ some (caller, .reading job)) : Settled tail body s := by
  have accounted := inv.accounted
  unfold Accounted at accounted
  split at accounted
  · rename_i held
    exact absurd held (idle _ _)
  · exact accounted

theorem Inv.grantedRead (held : s.holder = some (.read len late, .granted)) :
    Inv tail body (if s.draining || s.impl.isComplete then s.finishRead late (.ok [])
      else { s with holder := some (.read len late, .reading (.enter len)) }) := by
  have settled : Settled tail body s := inv.settled (by rw [held]; nofun)
  split
  · exact inv.finishRead held settled (.inl rfl) fun _ => rfl
  rename_i goes
  obtain ⟨fresh, unfinished⟩ : s.draining = false ∧ s.impl.isComplete = false := by
    simpa using goes
  refine inv.advance held (settled.busy unfinished len.pos) nofun id nofun ?_ (.inl rfl)
  rintro len late job ⟨⟩ -
  -- a late read at the head of the line would have found the body drained or complete
  cases late with
  | false => rfl
  | true =>
    have line : s.line = [] ++ .read len true :: s.queue := by rw [State.line, held]; rfl
    rcases inv.ordered _ _ _ line with drained | complete | mem
    · rw [fresh] at drained
      cases drained
    · rw [unfinished] at complete
      cases complete
    · cases mem

theorem Inv.loop (held : s.holder = some (caller, .looping)) :
    Inv tail body (if s.impl.isComplete then s.finishDrain .next
      else { s with holder := some (caller, .reading (.enter 4096)) }) := by
  obtain rfl := inv.loops caller held
  have drained : s.draining = true := (inv.drained _ held).resolve_left nofun
  have settled : Settled tail body s := inv.settled (by rw [held]; nofun)
  split
  · rename_i complete
    exact inv.finishDrain held drained settled complete
  · rename_i unfinished
    have busy := settled.busy (by simpa using unfinished) (by decide : 0 < 4096)
    exact inv.advance held busy (fun _ => drained) id nofun nofun (.inl rfl)

theorem Inv.step (took : s.step action = some t) : Inv tail body t := by
  cases action with
  | read len =>
    cases took
    exact inv.read len
  | check =>
    simp only [State.step] at took
    split at took
    · rename_i handling
      have checked := inv.check handling
      split at took
      · rename_i complete
        cases took
        rwa [if_pos complete] at checked
      · rename_i unfinished
        cases took
        rwa [if_neg unfinished] at checked
    · cases took
  | proceed =>
    simp only [State.step, State.proceed] at took
    split at took
    · cases took
    · rename_i held
      have granted := inv.grantedRead held
      split at took
      · rename_i ended
        cases took
        rwa [if_pos ended] at granted
      · rename_i goes
        cases took
        rwa [if_neg goes] at granted
    · rename_i held
      cases took
      exact inv.advance held (inv.settled (by rw [held]; nofun)) (fun _ => rfl) (fun _ => rfl)
        (fun _ => rfl) nofun (.inl rfl)
    · rename_i held
      have looped := inv.loop held
      split at took
      · rename_i ended
        cases took
        rwa [if_pos ended] at looped
      · rename_i goes
        cases took
        rwa [if_neg goes] at looped
    · rename_i held
      cases took
      exact inv.runJob held

end

def Untouched (s t : State) : Prop := t.impl = s.impl ∧ t.source = s.source ∧ t.taken = s.taken

theorem lock_untouched (caller : Caller) (s : State) : Untouched s (s.lock caller) := by
  unfold State.lock
  split <;> exact ⟨rfl, rfl, rfl⟩

theorem unlock_untouched (s : State) : Untouched s s.unlock := by
  unfold State.unlock
  split <;> exact ⟨rfl, rfl, rfl⟩

theorem Inv.busy (inv : Inv tail body s) (held : s.holder = some (caller, .reading job)) :
    job.Fits s.impl := by
  have accounted := inv.accounted
  rw [Accounted, held] at accounted
  obtain ⟨_, _, _, _, fits, -⟩ := accounted
  exact fits

theorem Inv.taken (inv : Inv tail body s) : s.taken <+: body := by
  have accounted := inv.accounted
  unfold Accounted at accounted
  split at accounted
  · obtain ⟨bytes, _, _, left, -, -, -, whole, -⟩ := accounted
    exact ⟨bytes ++ left, whole⟩
  · obtain ⟨left, -, whole⟩ := accounted
    exact ⟨left, whole⟩

theorem Inv.step_complete (inv : Inv tail body s) (complete : s.impl.isComplete = true)
    (took : s.step action = some t) : Untouched s t := by
  cases action with
  | read len =>
    cases took
    exact lock_untouched _ s
  | check =>
    simp only [State.step] at took
    split at took
    · cases took
      exact ⟨rfl, rfl, rfl⟩
    · cases took
  | proceed =>
    simp only [State.step, State.proceed, complete, Bool.or_true] at took
    split at took
    · cases took
    · cases took
      exact unlock_untouched { s with returned := _ }
    · cases took
      exact ⟨rfl, rfl, rfl⟩
    · cases took
      exact unlock_untouched { s with server := _ }
    · rename_i held
      rw [(inv.busy held).isComplete] at complete
      cases complete

theorem inv_start (framing : Framing) (moderate : framing.Moderate) (valid : c.Valid)
    (whole : c.unread = framing.encode ++ tail) :
    Inv tail framing.body (start framing.mode framing.length c) where
  accounted := ⟨_, .create framing moderate valid whole, rfl⟩
  free _ := rfl
  drains := rfl
  drained := nofun
  loops := nofun
  reads := nofun
  serves := ⟨nofun, nofun⟩
  ordered before _ _ split := by cases before <;> cases split
  results := nofun

/-- In every interleaving of reads with the server's check and drain the body is taken once and in
order, a read that is called after `drain` gets nothing, and when the server goes on, the body is
consumed, nobody is inside `readImpl` and whoever waits for the lock leaves the connection alone. -/
theorem body_shared (tail : Bytes) (framing : Framing) (moderate : framing.Moderate) (c : Source)
    (valid : c.Valid) (whole : c.unread = framing.encode ++ tail)
    (run : Run State.step free (start framing.mode framing.length c) actions s) :
    s.taken <+: framing.body ∧ (∀ result, (true, result) ∈ s.returned → result = .ok []) ∧
      s.server ≠ .aborted ∧
      (s.server = .next → s.taken = framing.body ∧ s.source.unread = tail ∧
        (∀ caller job, s.holder ≠ some (caller, .reading job)) ∧
        ∀ more t, Run State.step free s more t → Untouched s t) := by
  have inv : Inv tail framing.body s :=
    run.invariant (inv_start framing moderate valid whole) fun inv _ stepped => inv.step stepped
  refine ⟨inv.taken, inv.results, inv.serves.1, ?_⟩
  intro next
  have complete := inv.serves.2 next
  have idle : ∀ caller job, s.holder ≠ some (caller, .reading job) := by
    intro caller job held
    rw [(inv.busy held).isComplete] at complete
    cases complete
  obtain ⟨left, carries, all⟩ := inv.settled idle
  obtain ⟨rfl, -, unread⟩ := carries.isComplete complete
  refine ⟨by rwa [append_nil] at all, unread, idle, ?_⟩
  intro more t later
  have kept : Inv tail framing.body t ∧ Untouched s t := by
    refine later.invariant (P := fun t => Inv tail framing.body t ∧ Untouched s t)
      ⟨inv, rfl, rfl, rfl⟩ ?_
    rintro t u action ⟨inv, impl, source, taken⟩ - stepped
    obtain ⟨impl', source', taken'⟩ := inv.step_complete (by rw [impl, complete]) stepped
    exact ⟨inv.step stepped, impl'.trans impl, source'.trans source, taken'.trans taken⟩
  exact kept.2

def sampleSource : Source := { stream := { rest := ascii "abGET" } }

def sampleActions : List Action := [.check, .proceed, .proceed, .read 1, .proceed, .proceed]

theorem body_shared_sample : ∃ s, Run State.step free (start .contentLength 2 sampleSource)
        sampleActions s ∧ s.server = .next ∧ s.taken = ascii "ab" ∧ s.source.unread = ascii "GET" := by
  have ends : ∃ s, exec State.step (start .contentLength 2 sampleSource) sampleActions =
      some s ∧ s.server = .next := exec_any (by decide +kernel)
  obtain ⟨s, done, next⟩ := ends
  have run := Run.of_exec done
  have shared := body_shared (ascii "GET") (.contentLength (ascii "2") (ascii "ab")) trivial
    sampleSource ⟨Nat.zero_le _, Nat.zero_le _⟩ rfl run
  exact ⟨s, run, next, (shared.2.2.2 next).1, (shared.2.2.2 next).2.1⟩

/-- The server may go on before a read that waits for the lock has returned. -/
theorem read_outlives_drain : ∃ s, Run State.step free (start .contentLength 2 sampleSource)
      sampleActions s ∧ s.server = .next ∧ s.line = [.read 1 true] := by
  have ends : ∃ s, exec State.step (start .contentLength 2 sampleSource) sampleActions =
      some s ∧ s.server = .next ∧ s.line = [.read 1 true] := exec_any (by decide +kernel)
  obtain ⟨s, done, facts⟩ := ends
  exact ⟨s, .of_exec done, facts⟩

end SharedBody
end Nitrocoro.Http
