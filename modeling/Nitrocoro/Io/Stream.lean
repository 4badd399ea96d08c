import Nitrocoro.Lib.Text

/-! The reading side of `io::Stream` over the bytes that the peer sends before it closes. -/
namespace Nitrocoro.Io
open Text

/-- What the peer will still send, and how many bytes each read to come gives of it: at least
one and at most what was asked for, while there are any. -/
structure Stream where
  rest : Bytes := []
  chops : List Nat := []
  deriving DecidableEq

namespace Stream
variable {s : Stream}

def read (len : Nat) (s : Stream) : Bytes × Stream :=
  let n := min len (max 1 (s.chops.headD len))
  (s.rest.take n, { rest := s.rest.drop n, chops := s.chops.tail })

theorem read_append (s : Stream) (len : Nat) : (s.read len).1 ++ (s.read len).2.rest = s.rest :=
  List.take_append_drop _ _

theorem length_read_le : (s.read len).1.length ≤ len := by
  simp only [read, List.length_take]
  omega

theorem length_read_pos (asked : 0 < len) (left : s.rest ≠ []) : 0 < (s.read len).1.length := by
  have := List.length_pos_iff.mpr left
  simp only [read, List.length_take]
  omega

/-- The stream after some reads that ask for `len` bytes each. -/
def after (len : Nat) : Nat → Stream → Stream
  | 0, s => s
  | k + 1, s => after len k (s.read len).2

def received (len : Nat) : Nat → Stream → Bytes
  | 0, _ => []
  | k + 1, s => (s.read len).1 ++ received len k (s.read len).2

theorem after_add (len j k : Nat) (s : Stream) :
    s.after len (j + k) = (s.after len j).after len k := by
  induction j generalizing s with
  | zero => rw [Nat.zero_add, after]
  | succ j ih => rw [Nat.succ_add, after, after, ih]

theorem received_append (len k : Nat) (s : Stream) :
    s.received len k ++ (s.after len k).rest = s.rest := by
  induction k generalizing s with
  | zero => rfl
  | succ k ih => rw [received, after, List.append_assoc, ih, read_append]

theorem received_add (len j k : Nat) (s : Stream) :
    s.received len (j + k) = s.received len j ++ (s.after len j).received len k := by
  induction j generalizing s with
  | zero => rw [Nat.zero_add, received, after, List.nil_append]
  | succ j ih => rw [Nat.succ_add, received, received, after, ih, List.append_assoc]

theorem received_full (len k : Nat) (bytes : Bytes) :
    received len k { rest := bytes } = bytes.take (len * k) := by
  induction k generalizing bytes with
  | zero => simp [received]
  | succ k ih =>
    have whole : min len (max 1 len) = len := by omega
    simp only [received, read, List.headD_nil, whole, List.tail_nil]
    rw [ih, Nat.mul_succ, Nat.add_comm, List.take_add]

end Stream
end Nitrocoro.Io
