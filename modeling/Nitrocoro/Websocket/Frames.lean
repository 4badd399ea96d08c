import Nitrocoro.Websocket.ConnectionProofs

/-! The frames that a call of `receive` reads, whatever the peer sends: which of them end up in the
message, and whether its payload gets the room for them. -/
namespace Nitrocoro.Websocket
open Text Io
open Http (bind_eq_ok bind_eq_error)
open List hiding all

structure Frame where
  header : FrameHeader
  data : Bytes

def Opcode.isControl : Opcode → Bool
  | close | ping | pong => true
  | _ => false

theorem Opcode.isControl_eq_false {opcode : Opcode} (ping : opcode ≠ .ping)
    (close : opcode ≠ .close) (pong : opcode ≠ .pong) : opcode.isControl = false := by
  cases opcode with
  | ping => exact absurd rfl ping
  | close => exact absurd rfl close
  | pong => exact absurd rfl pong
  | _ => rfl

namespace Frame

def appends (f : Frame) : Bool := f.header.opcode ≠ .ping ∧ f.header.opcode ≠ .close

def isControl (f : Frame) : Bool := f.header.opcode.isControl

def addition (f : Frame) : Bytes := if f.appends then f.data else []

def part (f : Frame) : Bytes := if f.isControl then [] else f.data

def echo (f : Frame) : Bytes := if f.header.opcode = .pong then f.data else []

theorem appends_iff (f : Frame) : f.appends ↔ f.isControl = false ∨ f.header.opcode = .pong := by
  cases named : f.header.opcode <;> simp [appends, isControl, Opcode.isControl, named]

theorem addition_cases (f : Frame) :
    f.header.opcode = .pong ∧ f.addition = f.data ∧ f.part = [] ∧ f.echo = f.data ∨
      f.header.opcode ≠ .pong ∧ f.addition = f.part ∧ f.echo = [] := by
  by_cases pong : f.header.opcode = .pong
  · have control : f.isControl = true := by
      rw [isControl, pong]
      rfl
    exact .inl ⟨pong, if_pos (f.appends_iff.mpr (.inr pong)), if_pos control, if_pos pong⟩
  refine .inr ⟨pong, ?_, if_neg pong⟩
  cases control : f.isControl with
  | true =>
    have left : ¬ f.appends = true := by
      simp [f.appends_iff, pong, control]
    rw [addition, part, if_neg left, if_pos control]
  | false =>
    rw [addition, part, if_pos (f.appends_iff.mpr (.inl control)), if_neg (by simp [control])]

theorem length_addition (f : Frame) : f.addition.length = f.part.length + f.echo.length := by
  rcases f.addition_cases with ⟨-, added, none, pong⟩ | ⟨-, added, none⟩
  · rw [added, none, pong, length_nil, Nat.zero_add]
  · rw [added, none, length_nil, Nat.add_zero]

/-- The payload of `receive` is what the message carries exactly if every Pong is empty. -/
theorem additions_eq_iff (frames : List Frame) : frames.flatMap addition = frames.flatMap part ↔
      ∀ f ∈ frames, f.header.opcode = .pong → f.data = [] := by
  constructor
  · intro same f mem pong
    have lengths : (frames.map fun f => f.part.length + f.echo.length).sum =
        (frames.map fun f => f.part.length).sum := by
      rw [← length_flatMap, ← same, length_flatMap]
      exact congrArg sum (map_congr_left fun f _ => f.length_addition.symm)
    rw [sum_map_add, Nat.add_eq_left, ← length_flatMap, length_eq_zero_iff,
      flatMap_eq_nil_iff] at lengths
    have silent := lengths f mem
    rwa [echo, if_pos pong] at silent
  · intro empty
    apply flatMap_congr
    intro f mem
    rcases f.addition_cases with ⟨pong, added, none, -⟩ | ⟨-, added, -⟩
    · rw [added, none, empty f mem pong]
    · exact added

end Frame

namespace WsConnection

/-- The frames that a call of `receive` has read so far, and the state of its loop behind them. -/
inductive Reads (conn : WsConnection) : List Frame → Bytes → Opcode → WsConnection → Prop where
  | start : Reads conn [] [] .continuation conn
  | next (before : Reads conn frames payload finalOpcode c)
      (read : readFrame payload.length c.stream = .ok (header, data, left))
      (goes : round (payload, finalOpcode, c) = .inl (payload', finalOpcode', c')) :
      Reads conn (frames ++ [⟨header, data⟩]) payload' finalOpcode' c'

inductive Returns (conn : WsConnection) : List Frame → Option WsMessage → WsConnection → Prop where
  | leave (before : Reads conn frames payload finalOpcode c)
      (read : readFrame payload.length c.stream = .ok (header, data, left))
      (leaves : round (payload, finalOpcode, c) = .inr (.ok (message, c'))) :
      Returns conn (frames ++ [⟨header, data⟩]) message c'

variable {conn c c' : WsConnection} {frames : List Frame} {payload payload' data : Bytes}
  {finalOpcode finalOpcode' : Opcode} {header : FrameHeader} {stream : Stream}
  {message : Option WsMessage}

theorem round_read (read : readFrame payload.length c.stream = .ok (header, data, stream)) :
    round (payload, finalOpcode, c) =
      if header.opcode = .ping then
        .inl (payload, finalOpcode, sendFrame Opcode.pong.code data { c with stream })
      else if header.opcode = .close then .inr (.ok (none, { c with stream }))
      else if header.fin then
        .inr (.ok (some
          { type := if (if header.opcode ≠ .continuation then header.opcode else finalOpcode) =
              .binary then .binary else .text
            payload := payload ++ data }, { c with stream }))
      else .inl (payload ++ data,
        if header.opcode ≠ .continuation then header.opcode else finalOpcode,
        { c with stream }) := by
  simp only [round, read]

theorem goes_cases (read : readFrame payload.length c.stream = .ok (header, data, stream))
    (goes : round (payload, finalOpcode, c) = .inl (payload', finalOpcode', c')) :
    payload' = payload ++ Frame.addition ⟨header, data⟩ ∧
      (header.opcode = .ping ∨ header.opcode ≠ .close ∧ header.fin = false) := by
  rw [round_read read] at goes
  split at goes
  · rename_i ping
    cases goes
    have left : ¬ Frame.appends ⟨header, data⟩ = true := by simp [Frame.appends, ping]
    exact ⟨by rw [Frame.addition, if_neg left, append_nil], .inl ping⟩
  rename_i other
  split at goes
  · cases goes
  rename_i message
  split at goes
  · cases goes
  rename_i more
  cases goes
  have added : Frame.appends ⟨header, data⟩ = true := by simp [Frame.appends, other, message]
  exact ⟨by rw [Frame.addition, if_pos added], .inr ⟨message, by simpa using more⟩⟩

theorem leaves_cases (read : readFrame payload.length c.stream = .ok (header, data, stream))
    (leaves : round (payload, finalOpcode, c) = .inr (.ok (message, c'))) :
    message = none ∧ header.opcode = .close ∨
      ∃ type, message = some ⟨type, payload ++ Frame.addition ⟨header, data⟩⟩ ∧
        header.opcode ≠ .ping ∧ header.opcode ≠ .close ∧ header.fin := by
  rw [round_read read] at leaves
  split at leaves
  · cases leaves
  rename_i other
  split at leaves
  · rename_i close
    cases leaves
    exact .inl ⟨rfl, close⟩
  rename_i message
  split at leaves
  · rename_i final
    cases leaves
    have added : Frame.appends ⟨header, data⟩ = true := by simp [Frame.appends, other, message]
    exact .inr ⟨_, by rw [Frame.addition, if_pos added], other, message, final⟩
  · cases leaves

theorem Reads.payload_eq (reads : Reads conn frames payload finalOpcode c) :
    payload = frames.flatMap Frame.addition ∧
      ∀ f ∈ frames, f.header.opcode = .ping ∨ f.header.opcode ≠ .close ∧ f.header.fin = false := by
  induction reads with
  | start => exact ⟨rfl, nofun⟩
  | next before read goes ih =>
    obtain ⟨same, others⟩ := ih
    obtain ⟨added, more⟩ := goes_cases read goes
    constructor
    · rw [added, flatMap_append, flatMap_singleton, ← same]
    intro f mem
    rcases mem_append.mp mem with earlier | last
    · exact others f earlier
    · rw [mem_singleton.mp last]
      exact more

theorem Returns.payload_eq {m : WsMessage} (returns : Returns conn frames (some m) c) :
    m.payload = frames.flatMap Frame.addition := by
  cases returns with
  | leave before read leaves =>
    rcases leaves_cases read leaves with ⟨none, -⟩ | ⟨type, same, -⟩
    · cases none
    · cases same
      rw [flatMap_append, flatMap_singleton, ← before.payload_eq.1]

theorem Returns.last_final {m : WsMessage} {f : Frame} (returns : Returns conn all (some m) c)
    (split : all = frames ++ [f]) :
    f.header.opcode ≠ .ping ∧ f.header.opcode ≠ .close ∧ f.header.fin := by
  cases returns with
  | leave before read leaves =>
    obtain ⟨-, same⟩ := append_inj' split rfl
    cases same
    rcases leaves_cases read leaves with ⟨none, -⟩ | ⟨-, -, final⟩
    · cases none
    · exact final

def Takes (conn : WsConnection) (frames : List Frame) : Prop :=
  (∃ payload finalOpcode c, Reads conn frames payload finalOpcode c) ∨
    ∃ message c, Returns conn frames message c

/-- A control frame is no part of a message: its data is neither in the payload of a message in
progress nor in one that is returned, and it does not end a message. -/
structure ControlApart (conn : WsConnection) : Prop where
  progress : ∀ frames payload finalOpcode c, Reads conn frames payload finalOpcode c →
    payload = frames.flatMap Frame.part
  message : ∀ frames m c, Returns conn frames (some m) c → m.payload = frames.flatMap Frame.part
  last : ∀ frames f m c, Returns conn (frames ++ [f]) (some m) c → f.isControl = false

/-- Control frames stay out of the messages exactly if the call reads no Pong that is final or has
a payload. -/
theorem control_apart_iff (conn : WsConnection) :
    ControlApart conn ↔ ∀ frames, Takes conn frames → ∀ f ∈ frames, f.header.opcode = .pong →
      f.header.fin = false ∧ f.data = [] := by
  constructor
  · intro apart
    have early : ∀ frames payload finalOpcode c, Reads conn frames payload finalOpcode c →
        ∀ f ∈ frames, f.header.opcode = .pong → f.header.fin = false ∧ f.data = [] := by
      intro frames payload finalOpcode c reads f mem pong
      obtain ⟨same, others⟩ := reads.payload_eq
      constructor
      · rcases others f mem with ping | ⟨-, more⟩
        · rw [pong] at ping
          cases ping
        · exact more
      · apply (Frame.additions_eq_iff frames).mp _ f mem pong
        exact same.symm.trans (apart.progress frames payload finalOpcode c reads)
    rintro frames (⟨payload, finalOpcode, c, reads⟩ | ⟨message, c, returns⟩) f mem pong
    · exact early frames payload finalOpcode c reads f mem pong
    cases returns with
    | leave before read leaves =>
      rcases mem_append.mp mem with earlier | last
      · exact early _ _ _ _ before f earlier pong
      rw [mem_singleton.mp last] at pong
      rcases leaves_cases read leaves with ⟨-, close⟩ | ⟨type, same, -⟩
      · exact nomatch pong.symm.trans close
      subst same
      have message := apart.last _ _ _ _ (.leave before read leaves)
      rw [Frame.isControl, pong] at message
      cases message
  · intro condition
    constructor
    · intro frames payload finalOpcode c reads
      rw [reads.payload_eq.1, Frame.additions_eq_iff]
      intro f mem pong
      exact (condition frames (.inl ⟨payload, finalOpcode, c, reads⟩) f mem pong).2
    · intro frames m c returns
      rw [returns.payload_eq, Frame.additions_eq_iff]
      intro f mem pong
      exact (condition frames (.inr ⟨some m, c, returns⟩) f mem pong).2
    intro frames f m c returns
    obtain ⟨ping, close, final⟩ := returns.last_final rfl
    have pong : f.header.opcode ≠ .pong := by
      intro pong
      have taken : Takes conn (frames ++ [f]) := .inr ⟨some m, c, returns⟩
      rw [(condition _ taken f mem_concat_self pong).1] at final
      cases final
    exact Opcode.isControl_eq_false ping close pong

theorem Reads.run (reads : Reads conn frames payload finalOpcode c) :
    conn.receive = Loop.run round_decreases (payload, finalOpcode, c) := by
  induction reads with
  | start => rfl
  | next before read goes ih => exact ih.trans (Loop.run_inl round_decreases goes)

/-- The call reads some frames, and the round behind them is the one that leaves the loop. -/
theorem receive_leaves (conn : WsConnection) :
    ∃ frames payload finalOpcode c, Reads conn frames payload finalOpcode c ∧
      round (payload, finalOpcode, c) = .inr conn.receive := by
  apply Loop.run_spec round_decreases
    (fun s => ∃ frames, Reads conn frames s.1 s.2.1 s.2.2)
    (fun r => ∃ frames payload finalOpcode c, Reads conn frames payload finalOpcode c ∧
      round (payload, finalOpcode, c) = .inr r)
  · rintro ⟨payload, finalOpcode, c⟩ ⟨payload', finalOpcode', c'⟩ ⟨frames, reads⟩ goes
    obtain ⟨header, data, stream, read, -⟩ := round_inl goes
    exact ⟨_, .next reads read goes⟩
  · rintro ⟨payload, finalOpcode, c⟩ r ⟨frames, reads⟩ leaves
    exact ⟨frames, payload, finalOpcode, c, reads, leaves⟩
  · exact ⟨[], .start⟩

theorem receive_eq_ok_iff : conn.receive = .ok (message, c') ↔
    ∃ frames, Returns conn frames message c' := by
  constructor
  · intro received
    obtain ⟨frames, payload, finalOpcode, c, reads, leaves⟩ := receive_leaves conn
    rw [received] at leaves
    cases read : readFrame payload.length c.stream with
    | error e => simp [round, read] at leaves
    | ok frame => exact ⟨_, .leave reads read leaves⟩
  · rintro ⟨frames, returns⟩
    cases returns with
    | leave before read leaves => exact before.run.trans (Loop.run_inr round_decreases leaves)

def letter (byte : UInt8) : Fragment := ⟨[byte], none, .short, show 1 < 126 by decide⟩

def pongBetween : Bytes :=
  (letter 97).encode false .text ++
    ((letter 120).encode true .pong ++ (letter 98).encode true .continuation)

/-- The payload of the Pong is appended to the first part of the message, and ends it. -/
theorem pong_in_message : ∃ c, receive { stream := { rest := pongBetween } } =
    .ok (some ⟨.text, [97, 120]⟩, c) ∧ c.stream.rest = (letter 98).encode true .continuation ∧
      ¬ ControlApart { stream := { rest := pongBetween } } := by
  have first : ∃ s : Stream, readFrame 0 { rest := pongBetween } =
      .ok ((letter 97).header false .text, [97], s) ∧ s.rest =
        (letter 120).encode true .pong ++ (letter 98).encode true .continuation :=
    readFrame_encode (letter 97) false (by simp) rfl (by decide)
  obtain ⟨s₁, read₁, rest₁⟩ := first
  have second : ∃ s : Stream, readFrame 1 s₁ = .ok ((letter 120).header true .pong, [120], s) ∧
      s.rest = (letter 98).encode true .continuation :=
    readFrame_encode (letter 120) true (by simp) rest₁ (by decide)
  obtain ⟨s₂, read₂, rest₂⟩ := second
  have goes : round ([], .continuation, { stream := { rest := pongBetween } }) =
      .inl ([97], .text, { stream := s₁ }) := by
    simp only [round, length_nil, read₁]
    rfl
  have leaves : round ([97], .text, { stream := s₁ }) =
      .inr (.ok (some ⟨.text, [97, 120]⟩, { stream := s₂ })) := by
    simp only [round, length_singleton, read₂]
    rfl
  have reads := Reads.next .start read₁ goes
  have returns := Returns.leave reads read₂ leaves
  refine ⟨{ stream := s₂ }, receive_eq_ok_iff.mpr ⟨_, returns⟩, rest₂, fun apart => ?_⟩
  cases apart.last _ _ _ _ returns

end WsConnection

section Room
variable {s s' : Stream}

theorem readExact_error (failed : readExact len s = .error e) : e ≠ .outOfBounds := by
  rcases readExact_spec len s with ⟨_, done, -⟩ | ⟨closed, -⟩
  · rw [done] at failed
    cases failed
  · rw [closed] at failed
    cases failed
    exact nofun

theorem readField_error {f : Bytes → α}
    (failed : (do let (field, s) ← readExact len s; .ok (f field, s)) = Except.error e) :
    e ≠ .outOfBounds := by
  rcases bind_eq_error.mp failed with short | ⟨_, -, done⟩
  · exact readExact_error short
  · cases done

theorem readHeader_error (failed : readHeader s = .error e) : e ≠ .outOfBounds := by
  rcases bind_eq_error.mp failed with short | ⟨_, -, failed⟩
  · exact readExact_error short
  rcases bind_eq_error.mp failed with length | ⟨_, -, failed⟩
  · simp only [readLength] at length
    split at length
    · exact readField_error length
    · split at length
      · exact readField_error length
      · cases length
  rcases bind_eq_error.mp failed with key | ⟨_, -, done⟩
  · simp only [readMask] at key
    split at key
    · exact readField_error key
    · cases key
  · cases done

theorem readFrame_outOfBounds : readFrame offset s = .error .outOfBounds ↔
    ∃ header s', readHeader s = .ok (header, s') ∧ 2 ^ 64 ≤ offset + header.payloadLen ∧
      s'.rest ≠ [] := by
  constructor
  · intro failed
    rcases bind_eq_error.mp failed with head | ⟨⟨header, s'⟩, head, failed⟩
    · exact absurd rfl (readHeader_error head)
    refine ⟨header, s', head, ?_⟩
    rcases bind_eq_error.mp failed with payload | ⟨_, -, done⟩
    · simp only [readPayload] at payload
      split at payload
      · split at payload
        · cases payload
        · rename_i comes
          exact ⟨by omega, comes⟩
      · rcases bind_eq_error.mp payload with short | ⟨_, -, done⟩
        · exact absurd rfl (readExact_error short)
        · cases done
    · cases done
  · rintro ⟨header, s', head, wraps, comes⟩
    have smaller : (offset + header.payloadLen) % 2 ^ 64 < offset + header.payloadLen := by omega
    simp only [readFrame, head, bind, Except.bind, readPayload, if_pos smaller, if_neg comes]

theorem readFrame_length (read : readFrame offset s = .ok (header, data, s')) :
    data.length = header.payloadLen := by
  obtain ⟨⟨header, t⟩, -, read⟩ := bind_eq_ok.mp read
  obtain ⟨⟨bytes, u⟩, payload, same⟩ := bind_eq_ok.mp read
  cases same
  obtain ⟨-, plain, v, body, same⟩ := readPayload_ok payload
  cases same
  obtain ⟨taken, -, enough⟩ := readExact_ok body
  have length : plain.length = header.payloadLen := by
    rw [taken, length_take, Nat.min_eq_left enough]
  cases header.maskKey with
  | none => exact length
  | some key => exact (length_applyMask key plain).trans length

end Room

namespace WsConnection
variable {conn c : WsConnection} {frames : List Frame} {payload : Bytes} {finalOpcode : Opcode}

/-- The size that `payload.resize(offset + payloadLen)` gives; the sum is one of `size_t`. -/
def resized (offset payloadLen : Nat) : Nat := (offset + payloadLen) % 2 ^ 64

def announced (frames : List Frame) : Nat :=
  (frames.map fun f => if f.appends then f.header.payloadLen else 0).sum

theorem Reads.length_eq (reads : Reads conn frames payload finalOpcode c) :
    payload.length = announced frames := by
  induction reads with
  | start => rfl
  | next before read goes ih =>
    obtain ⟨added, -⟩ := goes_cases read goes
    rw [added, length_append, ih, announced, announced, map_append, sum_append,
      map_singleton, sum_singleton, Frame.addition]
    split
    · rw [readFrame_length read]
    · rfl

/-- The call reads some frames and the header of another, behind which `rest` is to come. -/
def Announces (conn : WsConnection) (frames : List Frame) (header : FrameHeader) (rest : Bytes) :
    Prop :=
  ∃ payload finalOpcode c s, Reads conn frames payload finalOpcode c ∧
    readHeader c.stream = .ok (header, s) ∧ s.rest = rest

theorem receive_outOfBounds_iff : conn.receive = .error .outOfBounds ↔
    ∃ frames header rest, Announces conn frames header rest ∧
      2 ^ 64 ≤ announced frames + header.payloadLen ∧ rest ≠ [] := by
  constructor
  · intro failed
    obtain ⟨frames, payload, finalOpcode, c, reads, leaves⟩ := receive_leaves conn
    rw [failed] at leaves
    have out : readFrame payload.length c.stream = .error .outOfBounds := by
      cases read : readFrame payload.length c.stream with
      | error e =>
        simp only [round, read] at leaves
        cases leaves
        rfl
      | ok frame =>
        rw [round_read read] at leaves
        split at leaves
        · cases leaves
        · split at leaves
          · cases leaves
          · split at leaves <;> cases leaves
    obtain ⟨header, s, head, wraps, comes⟩ := readFrame_outOfBounds.mp out
    rw [reads.length_eq] at wraps
    exact ⟨frames, header, s.rest, ⟨payload, finalOpcode, c, s, reads, head, rfl⟩, wraps, comes⟩
  · rintro ⟨frames, header, -, ⟨payload, finalOpcode, c, s, reads, head, rfl⟩, wraps, comes⟩
    rw [← reads.length_eq] at wraps
    have out := readFrame_outOfBounds.mpr ⟨header, s, head, wraps, comes⟩
    rw [reads.run]
    apply Loop.run_inr round_decreases
    simp only [round, out]

/-- The payload of `receive` has room for every frame that is read into it exactly if no frame
takes the length of its message to 2 ^ 64 or beyond; the call writes out of bounds exactly if one
does and a byte comes behind its header. -/
theorem payload_room_iff (conn : WsConnection) :
    ((∀ frames payload finalOpcode c header s, Reads conn frames payload finalOpcode c →
        readHeader c.stream = .ok (header, s) →
        payload.length + header.payloadLen ≤ resized payload.length header.payloadLen) ↔
      ∀ frames header rest, Announces conn frames header rest →
        announced frames + header.payloadLen < 2 ^ 64) ∧
    (conn.receive = .error .outOfBounds ↔ ∃ frames header rest, Announces conn frames header rest ∧
        2 ^ 64 ≤ announced frames + header.payloadLen ∧ rest ≠ []) := by
  refine ⟨⟨?_, ?_⟩, receive_outOfBounds_iff⟩
  · rintro room frames header rest ⟨payload, finalOpcode, c, s, reads, head, -⟩
    have fits := room frames payload finalOpcode c header s reads head
    rw [← reads.length_eq]
    unfold resized at fits
    omega
  · intro condition frames payload finalOpcode c header s reads head
    have small := condition frames header s.rest ⟨payload, finalOpcode, c, s, reads, head, rfl⟩
    rw [← reads.length_eq] at small
    rw [resized, Nat.mod_eq_of_lt small]

/-- One byte of a text, a continuation that announces 2 ^ 64 - 1 bytes, and the first of these. -/
def hugeContinuation : Bytes :=
  [0x01, 0x01, 97, 0x80, 0x7F, 0xFF, 0xFF, 0xFF, 0xFF, 0xFF, 0xFF, 0xFF, 0xFF, 98]

/-- The payload is resized to nothing, and the byte is read into the memory behind it. -/
theorem payload_wraps : receive { stream := { rest := hugeContinuation } } = .error .outOfBounds ∧
      resized 1 (2 ^ 64 - 1) = 0 := by
  constructor
  · rfl
  · decide

end WsConnection

end Nitrocoro.Websocket
