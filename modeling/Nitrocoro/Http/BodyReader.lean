import Nitrocoro.Http.Message
import Nitrocoro.Http.Source

/-! The body readers: each takes the bytes of one message body from the source it shares with
the parser. -/
namespace Nitrocoro.Http
open Text Source

/-- Up to `limit` bytes, from the buffer while it holds any and from the stream otherwise;
`none` at the end of the stream. -/
def Source.take (limit : Nat) (c : Source) : Option (Bytes × Source) :=
  if 0 < c.buffer.remainSize then
    let n := min c.buffer.remainSize limit
    some (c.view.take n, c.consume n)
  else
    let (bytes, stream) := c.stream.read limit
    if bytes = [] then none else some (bytes, { c with stream })

theorem Source.take_size {c d : Source} (taken : c.take limit = some (bytes, d)) :
    d.size + bytes.length ≤ c.size := by
  simp only [take] at taken
  split at taken
  · cases taken
    simp only [size, consume, Utils.StringBuffer.remainSize_consume, List.length_take]
    omega
  split at taken
  · cases taken
  cases taken
  have parts := congrArg List.length (c.stream.read_append limit)
  rw [List.length_append] at parts
  simp only [size]
  omega

inductive ChunkState where
  | readSize
  | readData
  | complete
  deriving DecidableEq

structure ChunkedReader where
  state : ChunkState := .readSize
  currentChunkSize : Nat := 0
  currentChunkRead : Nat := 0
  deriving DecidableEq

namespace ChunkedReader

def sizeLine : LineReader where
  len := 128
  tooLong n := 64 ≤ n
  asks := by decide

def trailerLine : LineReader where
  len := 128
  tooLong n := 8192 ≤ n
  asks := by decide

def skipTrailerRound : Nat × Source → (Nat × Source) ⊕ Except Exn Source
  | (lines, c) =>
    match trailerLine.awaitLine c with
    | (.tooLong, _) => .inr (.error (.runtimeError "Invalid chunked encoding: trailer line too long"))
    | (.closed, _) =>
      .inr (.error (.runtimeError "Connection closed before chunked trailer complete"))
    | (.found pos, d) =>
      if pos = 0 then .inr (.ok (d.consume (pos + 2)))
      else if 128 < lines + 1 then
        .inr (.error (.runtimeError "Invalid chunked encoding: too many trailer headers"))
      else .inl (lines + 1, d.consume (pos + 2))

theorem skipTrailerRound_inl (goes : skipTrailerRound (lines, c) = .inl t) :
    ∃ pos d, trailerLine.awaitLine c = (.found pos, d) ∧ pos ≠ 0 ∧ lines + 1 ≤ 128 ∧
      t = (lines + 1, d.consume (pos + 2)) := by
  simp only [skipTrailerRound] at goes
  split at goes
  · cases goes
  · cases goes
  rename_i pos d found
  split at goes
  · cases goes
  split at goes
  · cases goes
  · cases goes
    exact ⟨pos, d, found, ‹_›, by omega, rfl⟩

theorem skipTrailer_decreases : Loop.Decreases skipTrailerRound (fun s => 128 - s.1) := by
  rintro ⟨lines, c⟩ t goes
  obtain ⟨-, d, -, -, below, rfl⟩ := skipTrailerRound_inl goes
  dsimp only
  omega

def skipTrailer (c : Source) : Except Exn Source := Loop.run skipTrailer_decreases (0, c)

def skipCRLFRound (c : Source) : Source ⊕ Except Exn Source :=
  if c.buffer.remainSize < 2 then
    match c.fetch 128 with
    | none => .inr (.error (.runtimeError "Connection closed before chunk CRLF complete"))
    | some d => .inl d
  else .inr (.ok (c.consume 2))

theorem skipCRLFRound_inl (goes : skipCRLFRound c = .inl d) :
    c.buffer.remainSize < 2 ∧ c.fetch 128 = some d := by
  simp only [skipCRLFRound] at goes
  split at goes
  · split at goes
    · cases goes
    · cases goes
      exact ⟨‹_›, ‹_›⟩
  · cases goes

theorem skipCRLF_decreases : Loop.Decreases skipCRLFRound (fun c => c.stream.rest.length) :=
  fun _ _ goes => fetch_rest (skipCRLFRound_inl goes).2

def skipCRLF (c : Source) : Except Exn Source := Loop.run skipCRLF_decreases c

/-- `parseChunkSize` on a size line at the front of the buffer. -/
def startChunk (pos : Nat) (c : Source) : Except Exn (ChunkedReader × Source) :=
  if 64 < pos then
    .error (.runtimeError "Invalid chunked encoding: chunk size line too long")
  else match Numeral.stoul 16 (c.view.take pos) with
    | .error e => .error (.ofNumeral e)
    | .ok size =>
      if size = 0 then do
        let c ← skipTrailer (c.consume (pos + 2))
        .ok ({ state := .complete }, c)
      else .ok ({ state := .readData, currentChunkSize := size }, c.consume (pos + 2))

def parseChunkSize (c : Source) : Except Exn (ChunkedReader × Source) :=
  match sizeLine.awaitLine c with
  | (.tooLong, _) =>
    .error (.runtimeError "Invalid chunked encoding: chunk size line too long")
  | (.closed, _) => .error (.runtimeError "Connection closed before chunk size complete")
  | (.found pos, d) => startChunk pos d

/-- After some bytes of a chunk were delivered. -/
def advance (bytes : Bytes) (r : ChunkedReader) (c : Source) :
    Except Exn (Bytes × ChunkedReader × Source) :=
  let r := { r with currentChunkRead := r.currentChunkRead + bytes.length }
  if r.currentChunkSize ≤ r.currentChunkRead then do
    let c ← skipCRLF c
    .ok (bytes, { r with state := .readSize }, c)
  else .ok (bytes, r, c)

def readData (len : Nat) (r : ChunkedReader) (c : Source) :
    Except Exn (Bytes × ChunkedReader × Source) :=
  match c.take (min len (r.currentChunkSize - r.currentChunkRead)) with
  | none => .error (.runtimeError "Connection closed before chunk data complete")
  | some (bytes, d) => advance bytes r d

def readImpl (len : Nat) (r : ChunkedReader) (c : Source) :
    Except Exn (Bytes × ChunkedReader × Source) :=
  match r.state with
  | .complete => .ok ([], r, c)
  | .readData => readData len r c
  | .readSize => do
    let (r, c) ← parseChunkSize c
    if r.state = .complete then .ok ([], r, c) else readData len r c

theorem skipTrailer_size (skipped : skipTrailer c = .ok d) : d.size ≤ c.size := by
  refine Loop.run_spec skipTrailer_decreases (fun s => s.2.size ≤ c.size)
    (fun r => ∀ d, r = .ok d → d.size ≤ c.size) ?_ ?_ (Nat.le_refl _) d skipped
  · rintro ⟨lines, e⟩ t le goes
    obtain ⟨pos, d, found, -, -, rfl⟩ := skipTrailerRound_inl goes
    have := trailerLine.awaitLine_consume found
    dsimp only at le ⊢
    omega
  rintro ⟨lines, e⟩ r le leaves d rfl
  simp only [skipTrailerRound] at leaves
  split at leaves
  · cases leaves
  · cases leaves
  rename_i pos d found
  have := trailerLine.awaitLine_consume found
  dsimp only at le
  split at leaves
  · cases leaves
    omega
  · split at leaves <;> cases leaves

theorem skipCRLF_size (skipped : skipCRLF c = .ok d) : d.size ≤ c.size := by
  refine Loop.run_spec skipCRLF_decreases (fun e => e.size ≤ c.size)
    (fun r => ∀ d, r = .ok d → d.size ≤ c.size) ?_ ?_ (Nat.le_refl _) d skipped
  · intro e t le goes
    exact Nat.le_trans (fetch_size (skipCRLFRound_inl goes).2) le
  rintro e r le leaves d rfl
  simp only [skipCRLFRound] at leaves
  split at leaves
  · split at leaves <;> cases leaves
  cases leaves
  refine Nat.le_trans ?_ le
  simp only [size, consume, Utils.StringBuffer.remainSize_consume]
  omega

theorem startChunk_ok (parsed : startChunk pos c = .ok (r, d)) :
    ¬64 < pos ∧ ∃ size, Numeral.stoul 16 (c.view.take pos) = .ok size ∧
      (size = 0 ∧ skipTrailer (c.consume (pos + 2)) = .ok d ∧ r = { state := .complete } ∨
        size ≠ 0 ∧ d = c.consume (pos + 2) ∧
          r = { state := .readData, currentChunkSize := size }) := by
  simp only [startChunk] at parsed
  split at parsed
  · cases parsed
  rename_i short
  refine ⟨short, ?_⟩
  split at parsed
  · cases parsed
  rename_i size read
  refine ⟨size, read, ?_⟩
  split at parsed
  · rename_i zero
    obtain ⟨e, skipped, same⟩ := bind_eq_ok.mp parsed
    cases same
    exact .inl ⟨zero, skipped, rfl⟩
  · rename_i some
    cases parsed
    exact .inr ⟨some, rfl, rfl⟩

theorem parseChunkSize_size (parsed : parseChunkSize c = .ok (r, d)) : d.size ≤ c.size := by
  simp only [parseChunkSize] at parsed
  split at parsed
  · cases parsed
  · cases parsed
  rename_i pos e found
  have consumed := sizeLine.awaitLine_consume found
  obtain ⟨-, -, -, ⟨-, skipped, -⟩ | ⟨-, rfl, -⟩⟩ := startChunk_ok parsed
  · have := skipTrailer_size skipped
    omega
  · omega

theorem readData_ok (done : readData len r c = .ok (bytes, s, d)) :
    ∃ e, c.take (min len (r.currentChunkSize - r.currentChunkRead)) = some (bytes, e) ∧
      (r.currentChunkSize ≤ r.currentChunkRead + bytes.length ∧ skipCRLF e = .ok d ∧
          s = { r with state := .readSize, currentChunkRead := r.currentChunkRead + bytes.length } ∨
        ¬r.currentChunkSize ≤ r.currentChunkRead + bytes.length ∧ d = e ∧
          s = { r with currentChunkRead := r.currentChunkRead + bytes.length }) := by
  simp only [readData] at done
  split at done
  · cases done
  rename_i bytes' e taken
  simp only [advance] at done
  split at done
  · rename_i whole
    obtain ⟨f, skipped, same⟩ := bind_eq_ok.mp done
    cases same
    exact ⟨e, taken, .inl ⟨whole, skipped, rfl⟩⟩
  · rename_i part
    cases done
    exact ⟨_, taken, .inr ⟨part, rfl, rfl⟩⟩

theorem readData_size (done : readData len r c = .ok (bytes, s, d)) :
    d.size + bytes.length ≤ c.size := by
  obtain ⟨e, taken, ⟨-, skipped, -⟩ | ⟨-, rfl, -⟩⟩ := readData_ok done
  · have := take_size taken
    have := skipCRLF_size skipped
    omega
  · exact take_size taken

theorem readImpl_size (done : readImpl len r c = .ok (bytes, s, d)) :
    d.size + bytes.length ≤ c.size := by
  simp only [readImpl] at done
  split at done
  · cases done
    exact Nat.le_refl _
  · exact readData_size done
  obtain ⟨⟨t, e⟩, parsed, done⟩ := bind_eq_ok.mp done
  have := parseChunkSize_size parsed
  dsimp only at done
  split at done
  · cases done
    simpa using this
  · have := readData_size done
    omega

end ChunkedReader

inductive BodyReaderImpl where
  | noop
  | contentLength (contentLength bytesRead : Nat)
  | chunked (reader : ChunkedReader)
  | untilClose (complete : Bool)
  deriving DecidableEq

namespace BodyReaderImpl

def create (mode : TransferMode) (contentLength : Nat) : BodyReaderImpl :=
  match mode with
  | .contentLength => if contentLength = 0 then .noop else .contentLength contentLength 0
  | .chunked => .chunked {}
  | .untilClose => .untilClose false

def isComplete : BodyReaderImpl → Bool
  | .noop => true
  | .contentLength total bytesRead => total ≤ bytesRead
  | .chunked reader => reader.state = .complete
  | .untilClose complete => complete

def readImpl (len : Nat) (r : BodyReaderImpl) (c : Source) :
    Except Exn (Bytes × BodyReaderImpl × Source) :=
  match r with
  | .noop => .ok ([], .noop, c)
  | .contentLength total bytesRead =>
    if total ≤ bytesRead then .ok ([], r, c)
    else match c.take (min len (total - bytesRead)) with
      | none => .error (.runtimeError "Connection closed before content-length body complete")
      | some (bytes, d) => .ok (bytes, .contentLength total (bytesRead + bytes.length), d)
  | .chunked reader => do
    let (bytes, reader, c) ← reader.readImpl len c
    .ok (bytes, .chunked reader, c)
  | .untilClose complete =>
    if complete then .ok ([], r, c)
    else match c.take len with
      | none => .ok ([], .untilClose true, c)
      | some (bytes, d) => .ok (bytes, r, d)

theorem readImpl_size (done : readImpl len r c = .ok (bytes, s, d)) :
    d.size + bytes.length ≤ c.size := by
  cases r with
  | noop =>
    cases done
    exact Nat.le_refl _
  | contentLength total bytesRead =>
    simp only [readImpl] at done
    split at done
    · cases done
      exact Nat.le_refl _
    split at done
    · cases done
    · rename_i taken
      cases done
      exact take_size taken
  | chunked reader =>
    obtain ⟨⟨bytes', reader', e⟩, read, same⟩ := bind_eq_ok.mp done
    cases same
    exact ChunkedReader.readImpl_size read
  | untilClose complete =>
    simp only [readImpl] at done
    split at done
    · cases done
      exact Nat.le_refl _
    split at done
    · cases done
      exact Nat.le_refl _
    · rename_i taken
      cases done
      exact take_size taken

def drainRound : BodyReaderImpl × Source →
    (BodyReaderImpl × Source) ⊕ Except Exn (BodyReaderImpl × Source)
  | (r, c) =>
    if r.isComplete then .inr (.ok (r, c))
    else match r.readImpl 4096 c with
      | .error e => .inr (.error e)
      | .ok (bytes, s, d) => if bytes = [] then .inr (.ok (s, d)) else .inl (s, d)

theorem drainRound_inl (goes : drainRound (r, c) = .inl t) :
    r.isComplete = false ∧ ∃ bytes, r.readImpl 4096 c = .ok (bytes, t) ∧ bytes ≠ [] := by
  simp only [drainRound] at goes
  split at goes
  · cases goes
  rename_i unfinished
  split at goes
  · cases goes
  rename_i bytes s d read
  split at goes
  · cases goes
  · cases goes
    exact ⟨by simpa using unfinished, bytes, read, ‹_›⟩

theorem drain_decreases : Loop.Decreases drainRound (fun s => s.2.size) := by
  rintro ⟨r, c⟩ ⟨s, d⟩ goes
  obtain ⟨-, bytes, read, some⟩ := drainRound_inl goes
  have := readImpl_size read
  have := List.length_pos_iff.mpr some
  dsimp only
  omega

end BodyReaderImpl

/-- A body reader of a message, for the calls of one coroutine at a time. -/
structure BodyReader where
  impl : BodyReaderImpl
  draining : Bool := false
  deriving DecidableEq

namespace BodyReader

def create (mode : TransferMode) (contentLength : Nat) : BodyReader where
  impl := .create mode contentLength

def isComplete (b : BodyReader) : Bool := b.impl.isComplete

def read (len : Nat) (b : BodyReader) (c : Source) : Except Exn (Bytes × BodyReader × Source) :=
  if b.draining || b.isComplete then .ok ([], b, c)
  else do
    let (bytes, impl, c) ← b.impl.readImpl len c
    .ok (bytes, { b with impl }, c)

def drain (b : BodyReader) (c : Source) : Except Exn (BodyReader × Source) := do
  let (impl, c) ← Loop.run BodyReaderImpl.drain_decreases (b.impl, c)
  .ok ({ impl, draining := true }, c)

theorem read_delivers (done : read len b c = .ok (bytes, b', d)) :
    d.size + bytes.length ≤ c.size := by
  simp only [read] at done
  split at done
  · cases done
    exact Nat.le_refl _
  · obtain ⟨⟨bytes', impl, e⟩, read, same⟩ := bind_eq_ok.mp done
    cases same
    exact BodyReaderImpl.readImpl_size read

theorem read_size (done : read len b c = .ok (bytes, b', d)) : d.size ≤ c.size :=
  Nat.le_trans (Nat.le_add_right _ _) (read_delivers done)

theorem drain_size (done : drain b c = .ok (b', d)) : d.size ≤ c.size := by
  obtain ⟨⟨impl, e⟩, drained, same⟩ := bind_eq_ok.mp done
  cases same
  refine Loop.run_spec BodyReaderImpl.drain_decreases (fun s => s.2.size ≤ c.size)
    (fun r => ∀ impl d, r = .ok (impl, d) → d.size ≤ c.size) ?_ ?_ (Nat.le_refl _) impl d drained
  · rintro ⟨r, e⟩ ⟨s, f⟩ le goes
    obtain ⟨-, bytes, read, -⟩ := BodyReaderImpl.drainRound_inl goes
    have := BodyReaderImpl.readImpl_size read
    dsimp only at le ⊢
    omega
  rintro ⟨r, e⟩ result le leaves impl d rfl
  simp only [BodyReaderImpl.drainRound] at leaves
  dsimp only at le
  split at leaves
  · cases leaves
    exact le
  split at leaves
  · cases leaves
  rename_i read
  have := BodyReaderImpl.readImpl_size read
  split at leaves
  · cases leaves
    omega
  · cases leaves

end BodyReader
end Nitrocoro.Http
