import Nitrocoro.Lib.Transition
import Nitrocoro.Websocket.Writers

/-! The frames on the wire of a connection are whole if and only if every write that the socket
takes bytes of is in turn. -/
namespace Nitrocoro.Websocket.Writers
open Text Io Transition State
open Tls (Stage)

theorem frame_ne_nil (opcode : UInt8) (data : Bytes) : WsConnection.frame opcode data ≠ [] :=
  List.cons_ne_nil _ _

theorem goes_written (goes : WsConnection.round (payload, finalOpcode, { stream := left }) =
      .inl (payload', finalOpcode', { stream := left', written })) :
    written = [] ∨ ∃ data, written = [WsConnection.frame Opcode.pong.code data] := by
  simp only [WsConnection.round] at goes
  split at goes
  · cases goes
  rename_i header data _ _
  split at goes
  · cases goes
    exact .inr ⟨data, rfl⟩
  split at goes
  · cases goes
  split at goes
  · cases goes
  · cases goes
    exact .inl rfl

namespace State
variable {Id : Type} [DecidableEq Id]

/-- A coroutine whose write the socket takes bytes of goes on with the frame that is on the wire, or
the frame there is complete. -/
def InTurn (s : State Id) : Action Id → Prop
  | .put i (.wrote _) =>
    ∀ stage next, s.pc i = .writing stage next → ¬ s.Waits stage → s.out.InTurn i
  | _ => True

inductive Effect (s : State Id) : Action Id → State Id → Prop where
  | none (turn : s.InTurn a) (same : t.out = s.out) : Effect s a t
  | begins (i : Id) {frame : Bytes} (turn : s.InTurn a) (some : frame ≠ [])
      (out : t.out = s.out.begin i frame) : Effect s a t
  | abandons (i : Id) (turn : s.InTurn a) (out : t.out = s.out.abandon i) : Effect s a t
  | puts (here : s.pc i = .writing stage next) (runs : ¬ s.Waits stage)
      (putted : s.out.put i n = some (o, through)) (same : t.out = o) :
      Effect s (.put i (.wrote n)) t

variable {s t : State Id} {i : Id}

omit [DecidableEq Id] in
theorem inTurn_of_waits (here : s.pc i = .writing stage next) (waits : s.Waits stage)
    (answer : Tls.Answer) : s.InTurn (.put i answer) := by
  cases answer with
  | wrote n =>
    intro stage' next' there runs
    cases here.symm.trans there
    exact absurd waits runs
  | _ => trivial

theorem out_resume (i : Id) (s : State Id) (next : Continuation) :
    (s.resume i next).out = s.out := by
  cases next <;> rfl

theorem out_unwind (i : Id) (s : State Id) (next : Continuation) :
    (s.unwind i next).out = s.out := by
  cases next <;> rfl

theorem out_wakes (woken : List Id) (s : State Id) : (woken.foldl wake s).out = s.out := by
  induction woken generalizing s with
  | nil => rfl
  | cons i woken ih =>
    have first : (s.wake i).out = s.out := by
      rw [wake]
      split <;> rfl
    rw [List.foldl_cons, ih, first]

theorem read_effect (i : Id) (payload : Bytes) (finalOpcode : Opcode) (s : State Id) :
    Effect s (.read i) (s.read i payload finalOpcode) := by
  rw [read]
  split
  · exact .none trivial rfl
  · rename_i goes
    obtain none | ⟨data, pong⟩ := goes_written goes
    · cases none
    · cases pong
      exact .begins i trivial (frame_ne_nil _ _) rfl
  · exact .none trivial rfl
  · exact .none trivial rfl

theorem callWriter_effect (here : s.pc i = .writing stage next) (runs : ¬ s.Waits stage)
    (called : s.callWriter i next answer = some t) : Effect s (.put i answer) t := by
  cases answer with
  | wrote n =>
    simp only [callWriter] at called
    split at called
    · cases called
    · rename_i out putted
      cases called
      exact .puts here runs putted (out_resume ..)
    · rename_i out putted
      cases called
      exact .puts here runs putted rfl
  | again | interrupted =>
    cases called
    exact .none trivial rfl
  | closed =>
    cases called
    exact .abandons i trivial (out_resume ..)
  | failed =>
    cases called
    exact .abandons i trivial (out_unwind ..)

theorem step_effect {a : Action Id} (took : s.step a = some t) : Effect s a t := by
  cases a with
  | send i data type | shutdown i code reason =>
    obtain ⟨-, rfl⟩ := of_ite took
    exact .begins i trivial (frame_ne_nil _ _) rfl
  | receive i =>
    obtain ⟨-, rfl⟩ := of_ite took
    exact .none trivial rfl
  | read i =>
    simp only [step] at took
    split at took
    · cases took
      exact read_effect ..
    · cases took
  | put i answer =>
    simp only [step] at took
    split at took
    · cases took
    · rename_i here
      split at took
      · rename_i waits
        cases took
        exact .none (inTurn_of_waits here waits answer) rfl
      · rename_i runs
        exact callWriter_effect here runs took
    · cases took
  | events ev =>
    cases took
    exact .none trivial (out_wakes ..)

theorem inv_step {a : Action Id} (inv : s.out.Inv) (took : s.step a = some t) :
    t.out.Inv ∧ s.InTurn a ∨ t.out.Torn ∧ ¬ s.InTurn a := by
  cases step_effect took with
  | none turn same =>
    rw [same]
    exact .inl ⟨inv, turn⟩
  | begins i turn some out =>
    rw [out]
    exact .inl ⟨inv.begin i some, turn⟩
  | abandons i turn out =>
    rw [out]
    exact .inl ⟨inv.abandon i, turn⟩
  | puts here runs putted same =>
    rename_i i stage next n out through
    rw [same]
    by_cases turn : s.out.InTurn i
    · exact .inl ⟨inv.put turn putted, fun _ _ _ _ => turn⟩
    · exact .inr ⟨inv.put_torn turn putted, fun ok => turn (ok stage next here runs)⟩

/-- A frame is begun only while no other one is under way and none was left in part. -/
def Begins (s : State Id) (a : Action Id) : Prop :=
  ∀ t, s.step a = some t → t.out.blocks ≠ s.out.blocks → s.out.Idle

theorem alone_step {a : Action Id} (inv : s.out.Inv) (alone : s.out.Alone) (idle : s.Begins a)
    (took : s.step a = some t) : t.out.Inv ∧ t.out.Alone := by
  cases step_effect took with
  | none _ same =>
    rw [same]
    exact ⟨inv, alone⟩
  | begins i _ some out =>
    have grown : t.out.blocks ≠ s.out.blocks := by
      simp [out, Blocks.begin]
    rw [out]
    exact ⟨inv.begin i some, (idle t took grown).begin i _⟩
  | abandons i _ out =>
    rw [out]
    exact ⟨inv.abandon i, alone.abandon i⟩
  | puts _ _ putted same =>
    rw [same]
    exact alone.put inv putted

theorem torn_step {a : Action Id} (torn : s.out.Torn) (took : s.step a = some t) : t.out.Torn := by
  cases step_effect took with
  | none _ same =>
    rw [same]
    exact torn
  | begins i _ _ out =>
    rw [out]
    exact torn.grow (List.prefix_refl _) (List.prefix_append _ _)
  | abandons i _ out =>
    rw [out]
    exact torn.grow (List.prefix_refl _) (List.prefix_refl _)
  | puts _ _ putted same =>
    rw [same]
    obtain ⟨wire, blocks⟩ := Blocks.put_grows putted
    exact torn.grow wire blocks

end State

section Runs
variable {Id : Type} [DecidableEq Id] {t : State Id} {labels : List (Action Id)}

/-- The bytes on the wire are whole frames and then a part of another one, however the calls are
interleaved and however the socket takes the bytes, if and only if no coroutine sends bytes of its
frame while another frame is on the wire in part. -/
theorem frames_whole_iff (left : Stream) (writable : Bool)
    (run : Run step free (start left writable) labels t) :
    t.out.Whole ↔ Run step State.InTurn (start left writable) labels t :=
  run.good_iff (I := fun _ => True) trivial Blocks.Inv.empty (fun _ _ => trivial)
    (fun _ inv took => inv_step inv took) (fun _ torn took => torn_step torn took) (·.whole)
    (·.not_whole)

def sendThenPong : List (Action Bool) :=
  [.send false [104, 105] .text, .put false (.wrote 1), .put false (.wrote 3), .receive true,
    .read true, .put true (.wrote 2)]

def onePing : Stream := { rest := [0x89, 0x00] }

theorem frames_whole_send_pong : ∃ t, exec step (start onePing true) sendThenPong = some t ∧
      (t.out.Whole ↔
        Run step State.InTurn (start onePing true) sendThenPong t) := by
  obtain ⟨t, done⟩ := Option.isSome_iff_exists.mp
    (show (exec step (start onePing true) sendThenPong).isSome by decide +kernel)
  exact ⟨t, done, frames_whole_iff onePing true (.of_exec done)⟩

/-- Callers that wait for the end of each frame before the next one is begun keep the frames
whole. -/
theorem whole_of_begins (left : Stream) (writable : Bool)
    (run : Run step Begins (start left writable) labels t) : t.out.Whole :=
  (run.invariant (P := fun s : State Id => s.out.Inv ∧ s.out.Alone) ⟨.empty, fun _ => absurd rfl⟩
    fun both idle took => alone_step both.1 both.2 idle took).1.whole

/-- The socket is full when the message is there in part; the Pong is the first to go on. -/
def pongInFrame : List (Action Bool) :=
  [.send false [104, 105] .text, .put false (.wrote 1), .put false .again, .put false .again,
    .receive true, .read true, .put true .again, .events { output := true }, .put true (.wrote 2)]

/-- The Pong lands behind the first byte of the message's frame. -/
theorem frames_interleaved : ∃ t, Run step free (start onePing true) pongInFrame t ∧
      t.out.wire.map Blocks.Placed.item = [0x81, 0x8A, 0x00] ∧ ¬ t.out.Whole := by
  have ends : ∃ t, exec step (start onePing true) pongInFrame = some t ∧
      t.out.blocks = [[0x81, 0x02, 104, 105], [0x8A, 0x00]] ∧
      t.out.wire = [⟨0x81, 0, 0⟩, ⟨0x8A, 1, 0⟩, ⟨0x00, 1, 1⟩] :=
    exec_any (by decide +kernel)
  obtain ⟨t, done, blocks, wire⟩ := ends
  refine ⟨t, .of_exec done, by rw [wire]; rfl, Blocks.Torn.not_whole ?_⟩
  refine ⟨[], ⟨0x81, 0, 0⟩, ⟨0x8A, 1, 0⟩, [⟨0x00, 1, 1⟩], wire, by decide, ?_⟩
  rw [blocks]
  decide

end Runs
end Nitrocoro.Websocket.Writers
