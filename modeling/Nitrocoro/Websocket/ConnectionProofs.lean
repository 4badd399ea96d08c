import Nitrocoro.Websocket.Connection

/-! `receive` delivers a fragmented message however its frames are masked, how their lengths are
written and how the bytes come in, and answers the Pings on the way. -/
namespace Nitrocoro.Websocket
open Text Io List BigEndian

section Reading
variable {s : Stream} {bytes tail : Bytes}

theorem readExact_append (length : bytes.length = len) (whole : s.rest = bytes ++ tail) :
    ∃ s', readExact len s = .ok (bytes, s') ∧ s'.rest = tail := by
  rcases readExact_spec len s with ⟨s', read, rest, -⟩ | ⟨-, few⟩
  · rw [whole, take_left' length] at read
    rw [whole, drop_left' length] at rest
    exact ⟨s', read, rest⟩
  · rw [whole, length_append] at few
    omega

theorem readField_append (f : Bytes → α) (length : bytes.length = len)
    (whole : s.rest = bytes ++ tail) :
    ∃ s', (do let (field, s) ← readExact len s; .ok (f field, s)) = Except.ok (f bytes, s') ∧
      s'.rest = tail := by
  obtain ⟨s', read, rest⟩ := readExact_append length whole
  exact ⟨s', by rw [read]; rfl, rest⟩

end Reading

@[simp] theorem length_applyMask (key data : Bytes) : (applyMask key data).length = data.length :=
  length_mapIdx

theorem applyMask_applyMask (key data : Bytes) : applyMask key (applyMask key data) = data := by
  apply ext_getElem
  · simp
  · intro i _ _
    simp only [applyMask, getElem_mapIdx, UInt8.xor_assoc, UInt8.xor_self, UInt8.xor_zero]

inductive LengthForm where
  | short
  | medium
  | long

namespace LengthForm

/-- The lengths that a form can write; the highest bit of the long form has to be zero. -/
def Fits : LengthForm → Nat → Prop
  | short, n => n < 126
  | medium, n => n < 65536
  | long, n => n < 2 ^ 63

instance : (form : LengthForm) → (n : Nat) → Decidable (form.Fits n)
  | short, n => inferInstanceAs (Decidable (n < 126))
  | medium, n => inferInstanceAs (Decidable (n < 65536))
  | long, n => inferInstanceAs (Decidable (n < 2 ^ 63))

def encode (maskBit : UInt8) : LengthForm → Nat → Bytes
  | short, n => [maskBit ||| UInt8.ofNat n]
  | medium, n => (maskBit ||| 126) :: BigEndian.encode 2 n
  | long, n => (maskBit ||| 127) :: BigEndian.encode 8 n

def shortest (n : Nat) : LengthForm :=
  if n < 126 then short else if n < 65536 then medium else long

theorem shortest_le {other : LengthForm} (fits : other.Fits n) (maskBit : UInt8) :
    ((shortest n).encode maskBit n).length ≤ (other.encode maskBit n).length := by
  cases other with
  | short =>
    have small : n < 126 := fits
    rw [shortest, if_pos small]
  | medium =>
    have small : n < 65536 := fits
    rw [shortest]
    split <;> simp [encode]
  | long =>
    rw [shortest]
    split
    · simp [encode]
    · split <;> simp [encode]

theorem Fits.lt (fits : Fits form n) : n < 2 ^ 63 := by
  cases form with
  | short | medium => exact Nat.lt_trans fits (by decide)
  | long => exact fits

theorem fits_shortest (small : n < 2 ^ 63) : (shortest n).Fits n := by
  unfold shortest
  split
  · assumption
  · split <;> assumption

end LengthForm

structure Fragment where
  payload : Bytes
  mask : Option { key : Bytes // key.length = 4 }
  form : LengthForm
  fits : form.Fits payload.length

namespace Fragment
variable (f : Fragment)

def maskBit : UInt8 := if f.mask.isSome then 0x80 else 0x00

def maskKey : Option Bytes := f.mask.map Subtype.val

def covered : Bytes := f.maskKey.elim f.payload (applyMask · f.payload)

def encode (fin : Bool) (opcode : Opcode) : Bytes :=
  ((if fin then 0x80 else 0x00) ||| opcode.code) ::
    (f.form.encode f.maskBit f.payload.length ++ (f.maskKey.getD [] ++ f.covered))

def reply : Fragment where
  payload := f.payload
  mask := none
  form := .shortest f.payload.length
  fits := LengthForm.fits_shortest f.fits.lt

theorem frame_eq (opcode : Opcode) :
    WsConnection.frame opcode.code f.payload = f.reply.encode true opcode := by
  simp only [WsConnection.frame, reply, LengthForm.shortest]
  split
  · rfl
  · split <;> rfl

theorem length_covered : f.covered.length = f.payload.length := by
  unfold covered
  cases f.maskKey with
  | none => rfl
  | some key => exact length_applyMask key f.payload

theorem uncover : f.maskKey.elim f.covered (applyMask · f.covered) = f.payload := by
  unfold covered
  cases f.maskKey with
  | none => rfl
  | some key => exact applyMask_applyMask key f.payload

def header (fin : Bool) (opcode : Opcode) : FrameHeader where
  fin := fin
  opcode := opcode
  payloadLen := f.payload.length
  maskKey := f.maskKey

end Fragment

section Frames
variable {s : Stream} {tail : Bytes}

theorem second_byte (masked : Bool) : ∀ n < 128,
    ((if masked then 0x80 else 0x00) ||| UInt8.ofNat n) &&& 0x7F = UInt8.ofNat n ∧
      decide (((if masked then 0x80 else 0x00) ||| UInt8.ofNat n) &&& 0x80 ≠ 0) = masked := by
  cases masked <;> decide

theorem first_byte (fin : Bool) (opcode : Opcode) (known : ∀ code, opcode ≠ .reserved code) :
    Opcode.ofCode (((if fin then 0x80 else 0x00) ||| opcode.code) &&& 0x0F) = opcode ∧
      decide (((if fin then 0x80 else 0x00) ||| opcode.code) &&& 0x80 ≠ 0) = fin := by
  cases opcode with
  | reserved code => exact absurd rfl (known code)
  | _ => cases fin <;> decide

theorem readLength_encode {form : LengthForm} (masked : Bool) (fits : form.Fits n) (tail : Bytes) :
    ∃ second ext, form.encode (if masked then 0x80 else 0x00) n = second :: ext ∧
      decide (second &&& 0x80 ≠ 0) = masked ∧
      ∀ s : Stream, s.rest = ext ++ tail →
        ∃ s', readLength (second &&& 0x7F) s = .ok (n, s') ∧ s'.rest = tail := by
  have bits := second_byte masked
  cases form with
  | short =>
    have small : n < 126 := fits
    obtain ⟨low, high⟩ := bits n (by omega)
    refine ⟨_, [], rfl, high, fun s whole => ⟨s, ?_, whole⟩⟩
    have exact_ : (UInt8.ofNat n).toNat = n := UInt8.toNat_ofNat_of_lt (by
      simp only [UInt8.size]
      omega)
    have plain : UInt8.ofNat n ≠ 126 ∧ UInt8.ofNat n ≠ 127 := by
      constructor <;> intro same <;> rw [same] at exact_
      · exact absurd exact_.symm (Nat.ne_of_lt small)
      · exact absurd exact_.symm (Nat.ne_of_lt (Nat.lt_succ_of_lt small))
    rw [low, readLength, if_neg plain.1, if_neg plain.2, exact_]
  | medium =>
    obtain ⟨low, high⟩ := bits 126 (by decide)
    refine ⟨_, _, rfl, high, fun s whole => ?_⟩
    have value : decode (encode 2 n) = n := decode_encode fits
    have low : ((if masked then 0x80 else 0x00) ||| 126) &&& 0x7F = (126 : UInt8) := low
    obtain ⟨s', read, rest⟩ :=
      readField_append BigEndian.decode (length_encode 2 n) whole
    rw [value] at read
    rw [low]
    exact ⟨s', read, rest⟩
  | long =>
    obtain ⟨low, high⟩ := bits 127 (by decide)
    refine ⟨_, _, rfl, high, fun s whole => ?_⟩
    have small : n < 256 ^ 8 := Nat.lt_trans fits (by decide)
    have value : decode (encode 8 n) = n := decode_encode small
    have low : ((if masked then 0x80 else 0x00) ||| 127) &&& 0x7F = (127 : UInt8) := low
    obtain ⟨s', read, rest⟩ :=
      readField_append BigEndian.decode (length_encode 8 n) whole
    rw [value] at read
    rw [low]
    exact ⟨s', read, rest⟩

theorem readMask_encode (f : Fragment) (whole : s.rest = f.maskKey.getD [] ++ tail) :
    ∃ s', readMask f.mask.isSome s = .ok (f.maskKey, s') ∧ s'.rest = tail := by
  obtain ⟨payload, mask, form, fits⟩ := f
  cases mask with
  | none => exact ⟨s, rfl, whole⟩
  | some key =>
    exact readField_append some key.property whole

variable (f : Fragment) (fin : Bool) {opcode : Opcode}

theorem readHeader_encode (known : ∀ code, opcode ≠ .reserved code)
    (whole : s.rest = f.encode fin opcode ++ tail) :
    ∃ s', readHeader s = .ok (f.header fin opcode, s') ∧ s'.rest = f.covered ++ tail := by
  obtain ⟨named, final⟩ := first_byte fin opcode known
  obtain ⟨second, ext, start, masked, length⟩ :=
    readLength_encode f.mask.isSome f.fits (f.maskKey.getD [] ++ (f.covered ++ tail))
  have split : s.rest = [(if fin then 0x80 else 0x00) ||| opcode.code, second] ++
      (ext ++ (f.maskKey.getD [] ++ (f.covered ++ tail))) := by
    rw [whole, Fragment.encode, Fragment.maskBit, start]
    simp only [cons_append, append_assoc, nil_append]
  obtain ⟨s₁, read₁, rest₁⟩ := readExact_append rfl split
  obtain ⟨s₂, read₂, rest₂⟩ := length s₁ rest₁
  obtain ⟨s₃, read₃, rest₃⟩ := readMask_encode f rest₂
  refine ⟨s₃, ?_, rest₃⟩
  have read₁ : readExact 2 s = _ := read₁
  simp only [readHeader, read₁, bind, Except.bind, getD_cons_zero, getD_cons_succ, read₂,
    masked, read₃, named, final]
  rfl

theorem readFrame_encode (known : ∀ code, opcode ≠ .reserved code)
    (whole : s.rest = f.encode fin opcode ++ tail) (room : offset + f.payload.length < 2 ^ 64) :
    ∃ s', readFrame offset s = .ok (f.header fin opcode, f.payload, s') ∧ s'.rest = tail := by
  obtain ⟨s₁, read₁, rest₁⟩ := readHeader_encode f fin known whole
  obtain ⟨s₂, read₂, rest₂⟩ := readExact_append f.length_covered rest₁
  refine ⟨s₂, ?_, rest₂⟩
  have fits : ¬(offset + f.payload.length) % 2 ^ 64 < offset + f.payload.length := by
    rw [Nat.mod_eq_of_lt room]
    exact Nat.lt_irrefl _
  simp only [readFrame, read₁, bind, Except.bind, readPayload, Fragment.header, if_neg fits, read₂,
    f.uncover]

end Frames

def encodePings (pings : List Fragment) : Bytes := pings.flatMap (·.encode true .ping)

/-- The continuation frames of a message, each behind some Pings; the last one is final. -/
def encodeRest : List (List Fragment × Fragment) → Bytes
  | [] => []
  | (pings, f) :: rest =>
    encodePings pings ++ (f.encode rest.isEmpty .continuation ++ encodeRest rest)

structure Transmission where
  type : WsMessageType
  before : List Fragment
  first : Fragment
  rest : List (List Fragment × Fragment)

namespace Transmission

def encode (t : Transmission) : Bytes :=
  encodePings t.before ++ (t.first.encode t.rest.isEmpty t.type.opcode ++ encodeRest t.rest)

def message (t : Transmission) : WsMessage where
  type := t.type
  payload := t.first.payload ++ t.rest.flatMap fun part => part.2.payload

def pings (t : Transmission) : List Fragment := t.before ++ t.rest.flatMap Prod.fst

end Transmission

namespace WsConnection
variable {conn : WsConnection} {tail : Bytes} (payload : Bytes) (finalOpcode : Opcode)

def pongs (pings : List Fragment) : List Bytes := pings.map (·.reply.encode true .pong)

theorem run_ping (ping : Fragment) (whole : conn.stream.rest = ping.encode true .ping ++ tail)
    (room : payload.length + ping.payload.length < 2 ^ 64) :
    ∃ conn', Loop.run round_decreases (payload, finalOpcode, conn) =
        Loop.run round_decreases (payload, finalOpcode, conn') ∧
      conn'.stream.rest = tail ∧ conn'.written = conn.written ++ pongs [ping] := by
  obtain ⟨stream, read, rest⟩ := readFrame_encode ping true (by simp) whole room
  refine ⟨sendFrame Opcode.pong.code ping.payload { conn with stream },
    Loop.run_inl round_decreases ?_, rest, ?_⟩
  · simp only [round, read]
    exact if_pos rfl
  · simp only [sendFrame, ping.frame_eq, pongs, map_cons, map_nil]

theorem run_pings (pings : List Fragment) (whole : conn.stream.rest = encodePings pings ++ tail)
    (room : ∀ ping ∈ pings, payload.length + ping.payload.length < 2 ^ 64) :
    ∃ conn', Loop.run round_decreases (payload, finalOpcode, conn) =
        Loop.run round_decreases (payload, finalOpcode, conn') ∧
      conn'.stream.rest = tail ∧ conn'.written = conn.written ++ pongs pings := by
  induction pings generalizing conn with
  | nil => exact ⟨conn, rfl, whole, (append_nil _).symm⟩
  | cons ping pings ih =>
    have split : conn.stream.rest = ping.encode true .ping ++ (encodePings pings ++ tail) := by
      rw [whole, encodePings, flatMap_cons, append_assoc, encodePings]
    obtain ⟨conn₁, run₁, rest₁, written₁⟩ := run_ping payload finalOpcode ping split
      (room ping mem_cons_self)
    obtain ⟨conn₂, run₂, rest₂, written₂⟩ :=
      ih rest₁ (fun p mem => room p (mem_cons_of_mem _ mem))
    refine ⟨conn₂, run₁.trans run₂, rest₂, ?_⟩
    rw [written₂, written₁, append_assoc]
    rfl

theorem round_fragment (f : Fragment) (fin : Bool) {opcode : Opcode} {type : WsMessageType}
    (carries : opcode = .continuation ∧ finalOpcode = type.opcode ∨ opcode = type.opcode)
    (whole : conn.stream.rest = f.encode fin opcode ++ tail)
    (room : payload.length + f.payload.length < 2 ^ 64) :
    ∃ stream : Stream, stream.rest = tail ∧ round (payload, finalOpcode, conn) =
      if fin then .inr (.ok (some ⟨type, payload ++ f.payload⟩, { conn with stream }))
      else .inl (payload ++ f.payload, type.opcode, { conn with stream }) := by
  have known : ∀ code, opcode ≠ .reserved code := by
    rcases carries with ⟨rfl, -⟩ | rfl
    · nofun
    · cases type <;> nofun
  have message : opcode ≠ .ping ∧ opcode ≠ .close ∧
      (if opcode ≠ .continuation then opcode else finalOpcode) = type.opcode := by
    rcases carries with ⟨rfl, same⟩ | rfl
    · exact ⟨nofun, nofun, same⟩
    · cases type <;> exact ⟨nofun, nofun, rfl⟩
  have named : (if type.opcode = .binary then WsMessageType.binary else .text) = type := by
    cases type <;> rfl
  obtain ⟨stream, read, rest⟩ := readFrame_encode f fin known whole room
  refine ⟨stream, rest, ?_⟩
  simp only [round, read, Fragment.header, if_neg message.1, if_neg message.2.1, message.2.2, named]

theorem run_fragments (rest : List (List Fragment × Fragment)) (f : Fragment) {opcode : Opcode}
    {type : WsMessageType}
    (carries : opcode = .continuation ∧ finalOpcode = type.opcode ∨ opcode = type.opcode)
    (whole : conn.stream.rest = f.encode rest.isEmpty opcode ++ (encodeRest rest ++ tail))
    (room : payload.length + (f.payload ++ rest.flatMap (·.2.payload)).length < 2 ^ 63) :
    ∃ conn', Loop.run round_decreases (payload, finalOpcode, conn) =
        .ok (some ⟨type, payload ++ (f.payload ++ rest.flatMap (·.2.payload))⟩, conn') ∧
      conn'.stream.rest = tail ∧ conn'.written = conn.written ++ pongs (rest.flatMap Prod.fst) := by
  rw [length_append] at room
  obtain ⟨stream, left, goes⟩ :=
    round_fragment payload finalOpcode f rest.isEmpty carries whole (by omega)
  induction rest generalizing payload finalOpcode conn f opcode stream with
  | nil =>
    refine ⟨{ conn with stream }, ?_, left, (append_nil _).symm⟩
    rw [Loop.run_inr round_decreases goes, flatMap_nil, append_nil]
  | cons part rest ih =>
    obtain ⟨pings, g⟩ := part
    simp only [flatMap_cons, length_append] at room
    have split : ({ conn with stream } : WsConnection).stream.rest = encodePings pings ++
        (g.encode rest.isEmpty .continuation ++ (encodeRest rest ++ tail)) := by
      rw [left, encodeRest, append_assoc, append_assoc]
    have fits : ∀ ping ∈ pings, (payload ++ f.payload).length + ping.payload.length < 2 ^ 64 := by
      intro ping _
      have := ping.fits.lt
      rw [length_append]
      omega
    obtain ⟨conn₁, run₁, rest₁, written₁⟩ :=
      run_pings (payload ++ f.payload) type.opcode pings split fits
    have carries' : Opcode.continuation = .continuation ∧ type.opcode = type.opcode ∨
      Opcode.continuation = type.opcode := .inl ⟨rfl, rfl⟩
    have room' : (payload ++ f.payload).length +
        (g.payload.length + (rest.flatMap (·.2.payload)).length) < 2 ^ 63 := by
      rw [length_append]
      omega
    obtain ⟨stream', left', goes'⟩ := round_fragment (payload ++ f.payload) type.opcode g
      rest.isEmpty carries' rest₁ (by omega)
    obtain ⟨conn₂, run₂, rest₂, written₂⟩ := ih (payload ++ f.payload) type.opcode g carries' rest₁
      room' stream' left' goes'
    refine ⟨conn₂, ?_, rest₂, ?_⟩
    · rw [Loop.run_inl round_decreases goes, run₁, run₂, flatMap_cons, append_assoc]
    · rw [written₂, written₁, flatMap_cons, pongs, pongs, pongs, map_append, append_assoc]

/-- `receive` returns the message with the type of its first frame, leaves what comes behind its
last frame, and answers each Ping with a Pong of the same payload, in order. -/
theorem receive_fragmented (t : Transmission) (conn : WsConnection) (tail : Bytes)
    (whole : conn.stream.rest = t.encode ++ tail) (small : t.message.payload.length < 2 ^ 63) :
    ∃ conn', conn.receive = .ok (some t.message, conn') ∧ conn'.stream.rest = tail ∧
      conn'.written = conn.written ++ t.pings.map (·.reply.encode true .pong) := by
  have split : conn.stream.rest = encodePings t.before ++
      (t.first.encode t.rest.isEmpty t.type.opcode ++ (encodeRest t.rest ++ tail)) := by
    rw [whole, Transmission.encode, append_assoc, append_assoc]
  have fits : ∀ ping ∈ t.before, ([] : Bytes).length + ping.payload.length < 2 ^ 64 := by
    intro ping _
    have := ping.fits.lt
    rw [length_nil]
    omega
  obtain ⟨conn₁, run₁, rest₁, written₁⟩ := run_pings [] .continuation t.before split fits
  obtain ⟨conn₂, run₂, rest₂, written₂⟩ := run_fragments [] .continuation t.rest t.first (.inr rfl)
    rest₁ (by rwa [length_nil, Nat.zero_add])
  refine ⟨conn₂, run₁.trans run₂, rest₂, ?_⟩
  rw [written₂, written₁, Transmission.pings, map_append, append_assoc]
  rfl

/-- `send` writes one frame, with the length in the shortest form, and a peer that reads it gets the
message and leaves what comes behind it. -/
theorem receive_send (type : WsMessageType) (data : Bytes) (small : data.length < 2 ^ 63)
    (conn : WsConnection) : ∃ form : LengthForm, form.Fits data.length ∧
      (∀ other : LengthForm, other.Fits data.length →
        (form.encode 0x00 data.length).length ≤ (other.encode 0x00 data.length).length) ∧
      ∃ frame, frame = (0x80 ||| type.opcode.code) :: (form.encode 0x00 data.length ++ data) ∧
        (conn.send data type).written = conn.written ++ [frame] ∧
        ∀ (peer : WsConnection) (tail : Bytes), peer.stream.rest = frame ++ tail →
          ∃ peer', peer.receive = .ok (some ⟨type, data⟩, peer') ∧ peer'.stream.rest = tail ∧
            peer'.written = peer.written := by
  let f : Fragment :=
    { payload := data, mask := none, form := .shortest data.length,
      fits := LengthForm.fits_shortest small }
  refine ⟨.shortest data.length, f.fits, fun other fits => LengthForm.shortest_le fits _,
    f.encode true type.opcode, rfl, ?_, ?_⟩
  · rw [send, sendFrame, show frame type.opcode.code data = _ from f.frame_eq type.opcode]
    rfl
  intro peer tail whole
  obtain ⟨peer', received, rest, written⟩ :=
    run_fragments [] .continuation [] f (.inr rfl) whole (by simpa using small)
  refine ⟨peer', ?_, rest, ?_⟩
  · rw [receive, received, flatMap_nil, append_nil]
    rfl
  · simpa [pongs] using written

/-- Both thresholds: 126 bytes take the medium form and 65536 bytes the long one. -/
example : LengthForm.shortest 125 = .short ∧ LengthForm.shortest 126 = .medium ∧
    LengthForm.shortest 65535 = .medium ∧ LengthForm.shortest 65536 = .long :=
  ⟨rfl, rfl, rfl, rfl⟩

theorem receive_send_hello : (ascii "hello").length < 2 ^ 63 ∧
    ∃ frame peer', (send (ascii "hello") .text { stream := {} }).written = [frame] ∧
      receive { stream := { rest := frame ++ [1, 2], chops := [1, 1, 3] } } =
        .ok (some ⟨.text, ascii "hello"⟩, peer') ∧ peer'.stream.rest = [1, 2] := by
  have small : (ascii "hello").length < 2 ^ 63 := by decide
  obtain ⟨_, -, -, frame, -, sent, received⟩ := receive_send .text _ small { stream := {} }
  obtain ⟨peer', done, rest, -⟩ :=
    received { stream := { rest := frame ++ [1, 2], chops := [1, 1, 3] } } [1, 2] rfl
  exact ⟨small, frame, peer', sent, done, rest⟩

/-- A text in two frames, the first one masked, with a Ping between them. -/
def greeting : Transmission where
  type := .text
  before := []
  first :=
    { payload := ascii "Hel", mask := some ⟨[1, 2, 3, 4], rfl⟩, form := .short, fits := by decide }
  rest := [([{ payload := ascii "?", mask := none, form := .long, fits := by decide }],
    { payload := ascii "lo", mask := none, form := .medium, fits := by decide })]

theorem receive_fragmented_greeting :
    let conn : WsConnection :=
      { stream := { rest := greeting.encode ++ ascii "!", chops := [1, 1, 2] } }
    ∃ conn', conn.receive = .ok (some ⟨.text, ascii "Hello"⟩, conn') ∧
      conn'.stream.rest = ascii "!" ∧ conn'.written = [] ++ [[0x8A, 0x01, 0x3F]] := by
  intro conn
  exact receive_fragmented greeting conn (ascii "!") rfl (by decide)

end WsConnection

end Nitrocoro.Websocket
