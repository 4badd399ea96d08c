import Nitrocoro.Http.BodyReader
import Nitrocoro.Http.Head

/-! `HttpClient::readResponse`: a response is parsed and its body read to the end. -/
namespace Nitrocoro.Http
open Text Utils

/-- `readToEnd` on a `StringBuffer`: room to read into is made when little is left. -/
def roomForBody (buf : StringBuffer) : Nat × StringBuffer :=
  let available := buf.buffer.length - buf.writeOffset
  if available < 4096 then (8192, buf.prepareWrite 8192) else (available, buf)

def readToEndRound : StringBuffer × BodyReader × Source →
    (StringBuffer × BodyReader × Source) ⊕ Except Exn (StringBuffer × BodyReader × Source)
  | (buf, b, c) =>
    if b.isComplete then .inr (.ok (buf, b, c))
    else
      let (available, buf) := roomForBody buf
      match b.read available c with
      | .error e => .inr (.error e)
      | .ok (bytes, b, c) =>
        if bytes = [] then .inr (.ok (buf, b, c))
        else .inl ((buf.fill bytes).commitWrite bytes.length, b, c)

theorem readToEndRound_inl (goes : readToEndRound (buf, b, c) = .inl (buf', b', c')) :
    b.isComplete = false ∧ ∃ bytes, b.read (roomForBody buf).1 c = .ok (bytes, b', c') ∧
      bytes ≠ [] ∧ buf' = ((roomForBody buf).2.fill bytes).commitWrite bytes.length := by
  simp only [readToEndRound] at goes
  split at goes
  · cases goes
  rename_i unfinished
  split at goes
  · cases goes
  rename_i bytes b₁ c₁ done
  split at goes
  · cases goes
  · cases goes
    exact ⟨(Bool.not_eq_true _).mp unfinished, bytes, done, ‹_›, rfl⟩

theorem readToEnd_decreases : Loop.Decreases readToEndRound (fun s => s.2.2.size) := by
  rintro ⟨buf, b, c⟩ ⟨buf', b', c'⟩ goes
  obtain ⟨-, bytes, done, some, -⟩ := readToEndRound_inl goes
  have := BodyReader.read_delivers done
  have := List.length_pos_iff.mpr some
  dsimp only
  omega

def readToEnd (buf : StringBuffer) (b : BodyReader) (c : Source) :
    Except Exn (StringBuffer × BodyReader × Source) :=
  Loop.run readToEnd_decreases (buf, b, c)

/-- `readResponse`; the reader of a response to HEAD ignores a Content-Length. -/
def readResponse (ignoreContentLength : Bool) (c : Source) : Except Exn (HttpResponse × Bytes) := do
  let (result, c) ← responseHead.parseNext c
  if result.errorCode ≠ .none then
    .error (.runtimeError (String.ofList (result.errorMessage.map fun b => Char.ofNat b.toNat)))
  else
    let contentLength := if ignoreContentLength then 0 else result.message.contentLength
    let (buf, _, _) ← readToEnd {} (.create result.message.transferMode contentLength) c
    .ok (result.message, buf.view)

end Nitrocoro.Http
