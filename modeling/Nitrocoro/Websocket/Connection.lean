import Nitrocoro.Http.Header
import Nitrocoro.Io.Stream
import Nitrocoro.Lib.BigEndian
import Nitrocoro.Lib.Loop

/-! `WsConnection`: frames over a stream. The connection keeps the bytes of each call of the
stream's `write`. -/
namespace Nitrocoro.Websocket
open Text Io
open Http (bind_eq_ok)

/-- `Opcode`, with the values that the cast from four bits gives besides the named ones. -/
inductive Opcode where
  | continuation
  | text
  | binary
  | close
  | ping
  | pong
  | reserved (code : UInt8)
  deriving DecidableEq

namespace Opcode

def ofCode (code : UInt8) : Opcode :=
  if code = 0x0 then continuation
  else if code = 0x1 then text
  else if code = 0x2 then binary
  else if code = 0x8 then close
  else if code = 0x9 then ping
  else if code = 0xA then pong
  else reserved code

def code : Opcode → UInt8
  | continuation => 0x0
  | text => 0x1
  | binary => 0x2
  | close => 0x8
  | ping => 0x9
  | pong => 0xA
  | reserved code => code

end Opcode

inductive WsMessageType where
  | text
  | binary
  deriving DecidableEq

def WsMessageType.opcode : WsMessageType → Opcode
  | text => .text
  | binary => .binary

structure WsMessage where
  type : WsMessageType
  payload : Bytes
  deriving DecidableEq

inductive CloseCode where
  | normalClosure
  | endpointGone
  | protocolError
  | invalidMessage
  | none
  | abnormally
  | wrongMessageContent
  | violation
  | messageTooBig
  | needMoreExtensions
  | unexpectedCondition
  | tlsFailed
  deriving DecidableEq

def CloseCode.value : CloseCode → Nat
  | normalClosure => 1000
  | endpointGone => 1001
  | protocolError => 1002
  | invalidMessage => 1003
  | none => 1005
  | abnormally => 1006
  | wrongMessageContent => 1007
  | violation => 1008
  | messageTooBig => 1009
  | needMoreExtensions => 1010
  | unexpectedCondition => 1011
  | tlsFailed => 1015

/-- How `receive` fails: with an exception, or by a write behind the end of its payload. -/
inductive Failure where
  | threw (what : String)
  | outOfBounds
  deriving DecidableEq

def exactRound (len : Nat) : Bytes × Stream → (Bytes × Stream) ⊕ Except Failure (Bytes × Stream)
  | (got, s) =>
    if len ≤ got.length then .inr (.ok (got, s))
    else
      let (bytes, s) := s.read (len - got.length)
      if bytes = [] then .inr (.error (.threw "WsConnection: connection closed"))
      else .inl (got ++ bytes, s)

theorem exactRound_inl (goes : exactRound len (got, s) = .inl t) :
    got.length < len ∧ (s.read (len - got.length)).1 ≠ [] ∧
      t = (got ++ (s.read (len - got.length)).1, (s.read (len - got.length)).2) := by
  simp only [exactRound] at goes
  split at goes
  · cases goes
  rename_i missing
  split at goes
  · cases goes
  · rename_i some
    cases goes
    exact ⟨Nat.lt_of_not_le missing, some, rfl⟩

theorem exactRound_decreases (len : Nat) :
    Loop.Decreases (exactRound len) (fun s => s.2.rest.length) := by
  rintro ⟨got, s⟩ t goes
  obtain ⟨-, some, rfl⟩ := exactRound_inl goes
  have split := congrArg List.length (s.read_append (len - got.length))
  have := List.length_pos_iff.mpr some
  rw [List.length_append] at split
  dsimp only
  omega

def readExact (len : Nat) (s : Stream) : Except Failure (Bytes × Stream) :=
  Loop.run (exactRound_decreases len) ([], s)

/-- However the bytes come in, `readExact` takes the next ones, or fails if they are too few. -/
theorem readExact_spec (len : Nat) (s : Stream) :
    (∃ s', readExact len s = .ok (s.rest.take len, s') ∧ s'.rest = s.rest.drop len ∧
      len ≤ s.rest.length) ∨
    (readExact len s = .error (.threw "WsConnection: connection closed") ∧
      s.rest.length < len) := by
  apply Loop.run_spec (exactRound_decreases len)
    (fun t => t.1 ++ t.2.rest = s.rest ∧ t.1.length ≤ len)
    (fun r => (∃ s', r = .ok (s.rest.take len, s') ∧ s'.rest = s.rest.drop len ∧
      len ≤ s.rest.length) ∨
      (r = .error (.threw "WsConnection: connection closed") ∧ s.rest.length < len))
  · rintro ⟨got, t⟩ u ⟨whole, le⟩ goes
    obtain ⟨-, -, rfl⟩ := exactRound_inl goes
    dsimp only at whole le ⊢
    have few : (t.read (len - got.length)).1.length ≤ len - got.length := Stream.length_read_le
    refine ⟨by rw [List.append_assoc, t.read_append, whole], ?_⟩
    rw [List.length_append]
    omega
  · rintro ⟨got, t⟩ r ⟨whole, le⟩ leaves
    dsimp only at whole le
    simp only [exactRound] at leaves
    split at leaves
    · rename_i enough
      cases leaves
      have length : got.length = len := Nat.le_antisymm le enough
      left
      refine ⟨t, ?_, ?_, ?_⟩
      · rw [← whole, List.take_left' length]
      · rw [← whole, List.drop_left' length]
      · rw [← whole, List.length_append]
        omega
    · split at leaves
      · rename_i nothing
        cases leaves
        right
        refine ⟨rfl, ?_⟩
        have ended : t.rest = [] := by
          by_contra left
          have := Stream.length_read_pos (show 0 < len - got.length by omega) left
          rw [nothing] at this
          exact Nat.lt_irrefl _ this
        rw [← whole, ended, List.append_nil]
        omega
      · cases leaves
  · exact ⟨rfl, Nat.zero_le _⟩

theorem readExact_ok (read : readExact len s = .ok (bytes, s')) :
    bytes = s.rest.take len ∧ s'.rest = s.rest.drop len ∧ len ≤ s.rest.length := by
  rcases readExact_spec len s with ⟨s'', done, rest, enough⟩ | ⟨fails, -⟩
  · rw [done] at read
    cases read
    exact ⟨rfl, rest, enough⟩
  · rw [fails] at read
    cases read

theorem readExact_rest (read : readExact len s = .ok (bytes, s')) :
    s'.rest.length + len = s.rest.length := by
  obtain ⟨-, rest, enough⟩ := readExact_ok read
  rw [rest, List.length_drop]
  omega

structure FrameHeader where
  fin : Bool
  opcode : Opcode
  payloadLen : Nat
  maskKey : Option Bytes

def readLength (short : UInt8) (s : Stream) : Except Failure (Nat × Stream) :=
  if short = 126 then do
    let (ext, s) ← readExact 2 s
    .ok (BigEndian.decode ext, s)
  else if short = 127 then do
    let (ext, s) ← readExact 8 s
    .ok (BigEndian.decode ext, s)
  else .ok (short.toNat, s)

def readMask (masked : Bool) (s : Stream) : Except Failure (Option Bytes × Stream) :=
  if masked then do
    let (maskKey, s) ← readExact 4 s
    .ok (some maskKey, s)
  else .ok (none, s)

def readHeader (s : Stream) : Except Failure (FrameHeader × Stream) := do
  let (header, s) ← readExact 2 s
  let first := header.getD 0 0
  let second := header.getD 1 0
  let (payloadLen, s) ← readLength (second &&& 0x7F) s
  let (maskKey, s) ← readMask (second &&& 0x80 ≠ 0) s
  .ok ({ fin := first &&& 0x80 ≠ 0, opcode := .ofCode (first &&& 0x0F), payloadLen, maskKey }, s)

def applyMask (maskKey data : Bytes) : Bytes :=
  data.mapIdx fun i byte => byte ^^^ maskKey.getD (i % 4) 0

/-- The part of a frame behind its header, read to the end of a payload of `offset` bytes. Where
the new size does not fit into a `size_t` the payload gets shorter than `offset`, and the first byte
that comes is written behind it. -/
def readPayload (offset : Nat) (header : FrameHeader) (s : Stream) :
    Except Failure (Bytes × Stream) :=
  if (offset + header.payloadLen) % 2 ^ 64 < offset + header.payloadLen then
    if s.rest = [] then .error (.threw "WsConnection: connection closed") else .error .outOfBounds
  else do
    let (data, s) ← readExact header.payloadLen s
    .ok (header.maskKey.elim data (applyMask · data), s)

def readFrame (offset : Nat) (s : Stream) : Except Failure (FrameHeader × Bytes × Stream) := do
  let (header, s) ← readHeader s
  let (data, s) ← readPayload offset header s
  .ok (header, data, s)

section Sizes
variable {s s' : Stream}

theorem readPayload_ok (read : readPayload offset header s = .ok result) :
    offset + header.payloadLen < 2 ^ 64 ∧ ∃ data s', readExact header.payloadLen s = .ok (data, s') ∧
      result = (header.maskKey.elim data (applyMask · data), s') := by
  simp only [readPayload] at read
  split at read
  · split at read <;> cases read
  obtain ⟨⟨data, s'⟩, body, same⟩ := bind_eq_ok.mp read
  cases same
  exact ⟨by omega, data, s', body, rfl⟩

theorem readField_rest {f : Bytes → α}
    (read : (do let (field, s) ← readExact len s; .ok (f field, s)) = Except.ok (a, s')) :
    s'.rest.length ≤ s.rest.length := by
  obtain ⟨⟨field, t⟩, field_read, same⟩ := bind_eq_ok.mp read
  cases same
  exact Nat.le_of_add_right_le (Nat.le_of_eq (readExact_rest field_read))

theorem readLength_rest (read : readLength short s = .ok (n, s')) :
    s'.rest.length ≤ s.rest.length := by
  simp only [readLength] at read
  split at read
  · exact readField_rest read
  split at read
  · exact readField_rest read
  · cases read
    exact Nat.le_refl _

theorem readMask_rest (read : readMask masked s = .ok (maskKey, s')) :
    s'.rest.length ≤ s.rest.length := by
  simp only [readMask] at read
  split at read
  · exact readField_rest read
  · cases read
    exact Nat.le_refl _

theorem readHeader_rest (read : readHeader s = .ok (header, s')) :
    s'.rest.length < s.rest.length := by
  obtain ⟨⟨bytes, t⟩, start, read⟩ := bind_eq_ok.mp read
  obtain ⟨⟨n, u⟩, length, read⟩ := bind_eq_ok.mp read
  obtain ⟨⟨maskKey, v⟩, key, same⟩ := bind_eq_ok.mp read
  cases same
  have := readExact_rest start
  have := readLength_rest length
  have := readMask_rest key
  omega

theorem readFrame_rest (read : readFrame offset s = .ok (header, data, s')) :
    s'.rest.length < s.rest.length := by
  obtain ⟨⟨header, t⟩, start, read⟩ := bind_eq_ok.mp read
  obtain ⟨⟨bytes, u⟩, payload, same⟩ := bind_eq_ok.mp read
  cases same
  obtain ⟨-, plain, v, body, same⟩ := readPayload_ok payload
  cases same
  have := readHeader_rest start
  have := readExact_rest body
  omega

end Sizes

structure WsConnection where
  stream : Stream
  written : List Bytes := []

namespace WsConnection

/-- The bytes of `sendFrame`, which sets the mask bit but never masks. -/
def frame (opcode : UInt8) (data : Bytes) (mask : Bool := false) : Bytes :=
  let maskBit : UInt8 := if mask then 0x80 else 0x00
  let len := data.length
  (0x80 ||| opcode) ::
    ((if len < 126 then [maskBit ||| UInt8.ofNat len]
      else if len < 65536 then (maskBit ||| 126) :: BigEndian.encode 2 len
      else (maskBit ||| 127) :: BigEndian.encode 8 len) ++ data)

def sendFrame (opcode : UInt8) (data : Bytes) (conn : WsConnection) : WsConnection :=
  { conn with written := conn.written ++ [frame opcode data] }

def send (data : Bytes) (type : WsMessageType) (conn : WsConnection) : WsConnection :=
  conn.sendFrame type.opcode.code data

def closePayload (code : CloseCode) (reason : Bytes) : Bytes := BigEndian.encode 2 code.value ++ reason

def shutdown (code : CloseCode) (reason : Bytes) (conn : WsConnection) : WsConnection :=
  conn.sendFrame Opcode.close.code (closePayload code reason)

/-- A round of `receive`, with the payload so far and `finalOpcode`. -/
def round : Bytes × Opcode × WsConnection →
    (Bytes × Opcode × WsConnection) ⊕ Except Failure (Option WsMessage × WsConnection)
  | (payload, finalOpcode, conn) =>
    match readFrame payload.length conn.stream with
    | .error e => .inr (.error e)
    | .ok (header, data, stream) =>
      let conn := { conn with stream }
      if header.opcode = .ping then .inl (payload, finalOpcode, conn.sendFrame Opcode.pong.code data)
      else if header.opcode = .close then .inr (.ok (none, conn))
      else
        let finalOpcode := if header.opcode ≠ .continuation then header.opcode else finalOpcode
        if header.fin then
          let type := if finalOpcode = .binary then .binary else .text
          .inr (.ok (some { type, payload := payload ++ data }, conn))
        else .inl (payload ++ data, finalOpcode, conn)

theorem round_inl (goes : round (payload, finalOpcode, conn) = .inl t) :
    ∃ header data stream, readFrame payload.length conn.stream = .ok (header, data, stream) ∧
      t.2.2.stream = stream := by
  simp only [round] at goes
  split at goes
  · cases goes
  rename_i header data stream read
  refine ⟨header, data, stream, read, ?_⟩
  split at goes
  · cases goes
    rfl
  · split at goes
    · cases goes
    · split at goes <;> cases goes
      rfl

theorem round_decreases : Loop.Decreases round (fun s => s.2.2.stream.rest.length) := by
  rintro ⟨payload, finalOpcode, conn⟩ t goes
  obtain ⟨header, data, stream, read, same⟩ := round_inl goes
  have smaller := readFrame_rest read
  rwa [← same] at smaller

/-- `receive`: a message, or `none` when the peer closes. -/
def receive (conn : WsConnection) : Except Failure (Option WsMessage × WsConnection) :=
  Loop.run round_decreases ([], .continuation, conn)

end WsConnection

end Nitrocoro.Websocket
