import Mathlib.Data.PNat.Notation
import Nitrocoro.Http.BodyReader
import Nitrocoro.Lib.Transition

/-! `BodyReader` with its mutex, for reads from any number of coroutines while the server checks
`isComplete` and drains. Whoever is inside `readImpl` may be suspended before each read of the
stream; a fetch is one step. -/
namespace Nitrocoro.Http
open Text

/-- Where a coroutine is inside `readImpl`. -/
inductive Job where
  /-- At its beginning. -/
  | enter (len : Nat)
  /-- In the loop of `parseChunkSize`. -/
  | sizeLine (len : Nat)
  /-- In the loop of `skipTrailer`, called by `parseChunkSize`. -/
  | trailer (lines : Nat)
  /-- Before the data of a chunk. -/
  | data (len : Nat)
  /-- In the loop of `skipCRLF`, with these bytes to return. -/
  | crlf (bytes : Bytes)
  deriving DecidableEq

/-- A coroutine goes on inside `readImpl`, or it returns from it. -/
inductive Progress where
  | goes (job : Job) (impl : BodyReaderImpl) (c : Source)
  | returns (result : Except Exn Bytes) (impl : BodyReaderImpl) (c : Source)

namespace Job

def fails (message : String) (r : ChunkedReader) (c : Source) : Progress :=
  .returns (.error (.runtimeError message)) (.chunked r) c

def startChunk (len pos : Nat) (r : ChunkedReader) (c : Source) : Progress :=
  if 64 < pos then fails "Invalid chunked encoding: chunk size line too long" r c
  else match Numeral.stoul 16 (c.view.take pos) with
    | .error e => .returns (.error (.ofNumeral e)) (.chunked r) c
    | .ok size =>
      let r := { r with currentChunkSize := size, currentChunkRead := 0 }
      if size = 0 then .goes (.trailer 0) (.chunked r) (c.consume (pos + 2))
      else .goes (.data len) (.chunked { r with state := .readData }) (c.consume (pos + 2))

def stepSizeLine (len : Nat) (r : ChunkedReader) (c : Source) : Progress :=
  match ChunkedReader.sizeLine.round c with
  | .inl d => .goes (.sizeLine len) (.chunked r) d
  | .inr (.tooLong, d) => fails "Invalid chunked encoding: chunk size line too long" r d
  | .inr (.closed, d) => fails "Connection closed before chunk size complete" r d
  | .inr (.found pos, d) => startChunk len pos r d

def stepTrailer (lines : Nat) (r : ChunkedReader) (c : Source) : Progress :=
  match ChunkedReader.trailerLine.round c with
  | .inl d => .goes (.trailer lines) (.chunked r) d
  | .inr (.tooLong, d) => fails "Invalid chunked encoding: trailer line too long" r d
  | .inr (.closed, d) => fails "Connection closed before chunked trailer complete" r d
  | .inr (.found pos, d) =>
    if pos = 0 then .returns (.ok []) (.chunked { r with state := .complete }) (d.consume (pos + 2))
    else if 128 < lines + 1 then
      fails "Invalid chunked encoding: too many trailer headers" r (d.consume (pos + 2))
    else .goes (.trailer (lines + 1)) (.chunked r) (d.consume (pos + 2))

def stepData (len : Nat) (r : ChunkedReader) (c : Source) : Progress :=
  match c.take (min len (r.currentChunkSize - r.currentChunkRead)) with
  | none => fails "Connection closed before chunk data complete" r c
  | some (bytes, d) =>
    let r := { r with currentChunkRead := r.currentChunkRead + bytes.length }
    if r.currentChunkSize ≤ r.currentChunkRead then .goes (.crlf bytes) (.chunked r) d
    else .returns (.ok bytes) (.chunked r) d

def stepCrlf (bytes : Bytes) (r : ChunkedReader) (c : Source) : Progress :=
  match ChunkedReader.skipCRLFRound c with
  | .inl d => .goes (.crlf bytes) (.chunked r) d
  | .inr (.error e) => .returns (.error e) (.chunked r) c
  | .inr (.ok d) => .returns (.ok bytes) (.chunked { r with state := .readSize }) d

/-- The other readers read once and return. -/
def readOnce (len : Nat) (impl : BodyReaderImpl) (c : Source) : Progress :=
  match impl.readImpl len c with
  | .error e => .returns (.error e) impl c
  | .ok (bytes, impl, c) => .returns (.ok bytes) impl c

def step (job : Job) (impl : BodyReaderImpl) (c : Source) : Progress :=
  match impl, job with
  | .chunked r, .enter len =>
    match r.state with
    | .complete => .returns (.ok []) impl c
    | .readSize => .goes (.sizeLine len) impl c
    | .readData => .goes (.data len) impl c
  | .chunked r, .sizeLine len => stepSizeLine len r c
  | .chunked r, .trailer lines => stepTrailer lines r c
  | .chunked r, .data len => stepData len r c
  | .chunked r, .crlf bytes => stepCrlf bytes r c
  | impl, .enter len => readOnce len impl c
  | impl, _ => .returns (.ok []) impl c

end Job

namespace SharedBody

/-- A call that takes the lock: `late` tells that `drain` was called before this `read`. -/
inductive Caller where
  | read (len : ℕ+) (late : Bool)
  | drain
  deriving DecidableEq

/-- What the holder of the lock does next. -/
inductive Phase where
  /-- The lock was given to it, and it has not gone on yet. -/
  | granted
  /-- The test of the loop in `drain`. -/
  | looping
  | reading (job : Job)
  deriving DecidableEq

/-- Where the server is with the request. -/
inductive Server where
  | handling
  | draining
  | next
  | aborted
  deriving DecidableEq

structure State where
  impl : BodyReaderImpl
  source : Source
  draining : Bool := false
  holder : Option (Caller × Phase) := none
  queue : List Caller := []
  server : Server := .handling
  /-- History: what `readImpl` took of the body, in this order. -/
  taken : Bytes := []
  /-- History: the results of `read`, with `late` of the call. -/
  returned : List (Bool × Except Exn Bytes) := []

inductive Action where
  /-- Some coroutine calls `read`. -/
  | read (len : ℕ+)
  /-- The server gets to `if (!bodyReader->isComplete())`. -/
  | check
  /-- The holder of the lock goes on to its next suspension. -/
  | proceed

namespace State

/-- `scoped_lock`: the lock, or the last place in the queue. -/
def lock (caller : Caller) (s : State) : State :=
  match s.holder with
  | none => { s with holder := some (caller, .granted) }
  | some _ => { s with queue := s.queue ++ [caller] }

def unlock (s : State) : State :=
  match s.queue with
  | [] => { s with holder := none }
  | caller :: queue => { s with holder := some (caller, .granted), queue }

def finishRead (late : Bool) (result : Except Exn Bytes) (s : State) : State :=
  { s with returned := s.returned ++ [(late, result)] }.unlock

def finishDrain (server : Server) (s : State) : State := { s with server }.unlock

def readReturns (caller : Caller) (result : Except Exn Bytes) (s : State) : State :=
  let s := { s with taken := s.taken ++ (result.toOption.getD []) }
  match caller, result with
  | .read _ late, result => s.finishRead late result
  | .drain, .error _ => s.finishDrain .aborted
  | .drain, .ok [] => s.finishDrain .next
  | .drain, .ok _ => { s with holder := some (.drain, .looping) }

def runJob (caller : Caller) (job : Job) (s : State) : State :=
  match job.step s.impl s.source with
  | .goes job impl source => { s with impl, source, holder := some (caller, .reading job) }
  | .returns result impl source => { s with impl, source }.readReturns caller result

def proceed (s : State) : Option State :=
  match s.holder with
  | none => none
  | some (.read len late, .granted) =>
    if s.draining || s.impl.isComplete then some (s.finishRead late (.ok []))
    else some { s with holder := some (.read len late, .reading (.enter len)) }
  | some (.drain, .granted) =>
    some { s with draining := true, holder := some (.drain, .looping) }
  | some (caller, .looping) =>
    if s.impl.isComplete then some (s.finishDrain .next)
    else some { s with holder := some (caller, .reading (.enter 4096)) }
  | some (caller, .reading job) => some (s.runJob caller job)

def step (s : State) : Action → Option State
  | .read len => some (s.lock (.read len (s.server ≠ .handling)))
  | .check =>
    if s.server = .handling then
      if s.impl.isComplete then some { s with server := .next }
      else some ({ s with server := .draining }.lock .drain)
    else none
  | .proceed => s.proceed

end State

def start (mode : TransferMode) (contentLength : Nat) (source : Source) : State where
  impl := .create mode contentLength
  source := source

end SharedBody
end Nitrocoro.Http
