import Mathlib.Algebra.Ring.Nat
import Nitrocoro.Lib.Text
import Nitrocoro.Lib.Transition

/-! `StringBuffer`: the bytes between the two offsets are what was committed and not yet
consumed. -/
namespace Nitrocoro.Utils
open Text List Transition

structure StringBuffer where
  buffer : Bytes := []
  readOffset : Nat := 0
  writeOffset : Nat := 0
  deriving DecidableEq

namespace StringBuffer
variable {b : StringBuffer}

def view (b : StringBuffer) : Bytes :=
  (b.buffer.drop b.readOffset).take (b.writeOffset - b.readOffset)

def find (pattern : Bytes) (b : StringBuffer) : Option Nat := Text.find pattern b.view

def consume (n : Nat) (b : StringBuffer) : StringBuffer := { b with readOffset := b.readOffset + n }

/-- The `memmove` of the unconsumed bytes to the front. -/
def compact (b : StringBuffer) : StringBuffer where
  buffer := b.view ++ b.buffer.drop (b.writeOffset - b.readOffset)
  readOffset := 0
  writeOffset := b.writeOffset - b.readOffset

/-- `buffer_.resize(writeOffset_ + len)`, where the sum is below `2 ^ 64`. -/
def grow (len : Nat) (b : StringBuffer) : StringBuffer :=
  { b with buffer := b.buffer.take (b.writeOffset + len) ++
      List.replicate (b.writeOffset + len - b.buffer.length) 0 }

def prepareWrite (len : Nat) (b : StringBuffer) : StringBuffer :=
  if b.buffer.length - b.writeOffset < len then
    if 0 < b.readOffset ∧ len ≤ b.buffer.length - (b.writeOffset - b.readOffset) then b.compact
    else b.grow len
  else b

/-- What a read into the pointer that `prepareWrite` returned leaves in the buffer. -/
def fill (bytes : Bytes) (b : StringBuffer) : StringBuffer :=
  { b with buffer := b.buffer.take b.writeOffset ++ bytes ++
      b.buffer.drop (b.writeOffset + bytes.length) }

def commitWrite (len : Nat) (b : StringBuffer) : StringBuffer :=
  { b with writeOffset := b.writeOffset + len }

def remainSize (b : StringBuffer) : Nat := b.writeOffset - b.readOffset

structure Valid (b : StringBuffer) : Prop where
  ordered : b.readOffset ≤ b.writeOffset
  inside : b.writeOffset ≤ b.buffer.length

theorem length_view_le : b.view.length ≤ b.remainSize :=
  length_take_le _ _

theorem view_eq_drop : b.view = (b.buffer.take b.writeOffset).drop b.readOffset := by
  rw [drop_take, view]

theorem Valid.length_view (valid : b.Valid) : b.view.length = b.remainSize := by
  have := valid.inside
  simp only [view, remainSize, length_take, length_drop]
  omega

theorem view_consume : (b.consume n).view = b.view.drop n := by
  simp only [view, consume, drop_take, drop_drop]
  congr 1
  omega

theorem Valid.consume (valid : b.Valid) (enough : n ≤ b.remainSize) : (b.consume n).Valid := by
  have := valid.ordered
  simp only [remainSize] at enough
  exact ⟨by simp only [StringBuffer.consume]; omega, valid.inside⟩

theorem remainSize_consume : (b.consume n).remainSize = b.remainSize - n := by
  simp only [remainSize, consume]
  omega

theorem remainSize_prepareWrite (b : StringBuffer) (len : Nat) :
    (b.prepareWrite len).remainSize = b.remainSize := by
  unfold prepareWrite
  split
  · split
    · simp [compact, remainSize]
    · simp [grow, remainSize]
  · rfl

theorem remainSize_receive :
    ((b.fill bytes).commitWrite n).remainSize = if b.readOffset ≤ b.writeOffset + n then
      b.writeOffset + n - b.readOffset else 0 := by
  simp only [remainSize, fill, commitWrite]
  split <;> omega

theorem view_compact (valid : b.Valid) : b.compact.view = b.view := by
  have long := valid.length_view
  simp only [compact, view, remainSize, drop_zero, Nat.sub_zero] at long ⊢
  rw [take_append_of_le_length (by omega), take_take, Nat.min_self]

theorem Valid.compact (valid : b.Valid) : b.compact.Valid := by
  have long := valid.length_view
  refine ⟨Nat.zero_le _, ?_⟩
  simp only [StringBuffer.compact, remainSize, length_append] at long ⊢
  omega

theorem view_grow (valid : b.Valid) : (b.grow len).view = b.view := by
  have := valid.ordered
  have := valid.inside
  simp only [grow, view]
  rw [drop_append_of_le_length (by simp; omega), drop_take,
    take_append_of_le_length (by simp; omega), take_take]
  congr 1
  omega

theorem Valid.grow (valid : b.Valid) : (b.grow len).Valid := by
  refine ⟨valid.ordered, ?_⟩
  simp only [StringBuffer.grow, length_append, length_take, length_replicate]
  omega

theorem Valid.prepareWrite (valid : b.Valid) : (b.prepareWrite len).Valid := by
  unfold StringBuffer.prepareWrite
  split
  · split
    · exact valid.compact
    · exact valid.grow
  · exact valid

theorem view_prepareWrite (valid : b.Valid) : (b.prepareWrite len).view = b.view := by
  unfold prepareWrite
  split
  · split
    · exact view_compact valid
    · exact view_grow valid
  · rfl

theorem room_prepareWrite (valid : b.Valid) :
    (b.prepareWrite len).writeOffset + len ≤ (b.prepareWrite len).buffer.length := by
  have long := valid.length_view
  have := valid.inside
  simp only [remainSize] at long
  unfold prepareWrite
  split
  · split
    · simp only [compact, length_append, length_drop]
      omega
    · simp only [grow, length_append, length_take, length_replicate]
      omega
  · omega

theorem Valid.receive (valid : b.Valid) : ((b.fill bytes).commitWrite bytes.length).Valid := by
  have := valid.ordered
  have := valid.inside
  refine ⟨?_, ?_⟩
  · simp only [fill, commitWrite]
    omega
  · simp only [fill, commitWrite, length_append, length_take]
    omega

theorem view_receive (valid : b.Valid) :
    ((b.fill bytes).commitWrite bytes.length).view = b.view ++ bytes := by
  have written : (b.buffer.take b.writeOffset).length = b.writeOffset := by
    rw [length_take, Nat.min_eq_left valid.inside]
  simp only [view_eq_drop, fill, commitWrite]
  rw [take_left' (by rw [length_append, written]),
    drop_append_of_le_length (written.symm ▸ valid.ordered)]

def writableSize (b : StringBuffer) : Nat := b.buffer.length - b.writeOffset

def reset (b : StringBuffer) : StringBuffer := { b with readOffset := 0, writeOffset := 0 }

/-- A string that was moved from has unspecified bytes `left`. -/
def extract (left : Bytes) (b : StringBuffer) : Bytes × StringBuffer :=
  if b.readOffset = 0 then
    (b.buffer.take b.writeOffset ++ replicate (b.writeOffset - b.buffer.length) 0,
      { buffer := left })
  else (b.view, {})

/-- A buffer with the bytes that were committed and not yet consumed, and with the size that was
last prepared or reported, less what was committed of it. -/
structure Use where
  buffer : StringBuffer := {}
  queue : Bytes := []
  room : Nat := 0

inductive Op where
  | consume (n : Nat)
  | prepareWrite (len : Nat)
  | writableSize
  | commitWrite (bytes : Bytes)
  | extract (left : Bytes)
  | reset

/-- A caller that does not take more than there is, and for whom no `size_t` wraps. -/
def Use.step (u : Use) : Op → Option Use
  | .consume n =>
    if n ≤ u.buffer.remainSize then
      some { u with buffer := u.buffer.consume n, queue := u.queue.drop n }
    else none
  | .prepareWrite len =>
    if u.buffer.writeOffset + len < 2 ^ 64 then
      some { u with buffer := u.buffer.prepareWrite len, room := len }
    else none
  | .writableSize => some { u with room := u.buffer.writableSize }
  | .commitWrite bytes =>
    if bytes.length ≤ u.room then
      some { buffer := (u.buffer.fill bytes).commitWrite bytes.length
             queue := u.queue ++ bytes
             room := u.room - bytes.length }
    else none
  | .extract left => some { buffer := (u.buffer.extract left).2 }
  | .reset => some { u with buffer := u.buffer.reset, queue := [] }

structure Use.Fifo (u : Use) : Prop where
  valid : u.buffer.Valid
  view : u.buffer.view = u.queue
  room : u.buffer.writeOffset + u.room ≤ u.buffer.buffer.length

theorem Valid.extract (valid : b.Valid) (left : Bytes) :
    (b.extract left).1 = b.view ∧ (b.extract left).2.Valid ∧ (b.extract left).2.view = [] := by
  unfold StringBuffer.extract
  split
  · rename_i start
    refine ⟨?_, ⟨Nat.le_refl _, Nat.zero_le _⟩, rfl⟩
    rw [Nat.sub_eq_zero_of_le valid.inside, view, start]
    exact append_nil _
  · exact ⟨rfl, ⟨Nat.le_refl _, Nat.le_refl _⟩, rfl⟩

theorem Use.Fifo.step (fifo : Fifo u) (took : u.step op = some t) : Fifo t := by
  obtain ⟨valid, same, room⟩ := fifo
  cases op with
  | consume n =>
    obtain ⟨enough, rfl⟩ := of_ite took
    exact ⟨valid.consume enough, view_consume.trans (congrArg _ same), room⟩
  | prepareWrite len =>
    obtain ⟨-, rfl⟩ := of_ite took
    exact ⟨valid.prepareWrite, (view_prepareWrite valid).trans same, room_prepareWrite valid⟩
  | writableSize =>
    cases took
    exact ⟨valid, same, Nat.le_of_eq (Nat.add_sub_cancel' valid.inside)⟩
  | commitWrite bytes =>
    obtain ⟨-, rfl⟩ := of_ite took
    refine ⟨valid.receive, (view_receive valid).trans (congrArg (· ++ bytes) same), ?_⟩
    simp only [fill, commitWrite, length_append, length_take, length_drop]
    omega
  | extract left =>
    cases took
    obtain ⟨-, valid, empty⟩ := valid.extract left
    exact ⟨valid, empty, valid.inside⟩
  | reset =>
    cases took
    refine ⟨⟨Nat.le_refl _, Nat.zero_le _⟩, rfl, ?_⟩
    exact Nat.le_trans (Nat.add_le_add_right (Nat.zero_le _) _) room

/-- The buffer is a queue of bytes, if what is committed for one size that was prepared or reported
is no more than this in all, and the size that is prepared does not wrap around. -/
theorem fifo (run : Run Use.step free {} ops u) : (u.buffer.readOffset ≤ u.buffer.writeOffset ∧
      u.buffer.writeOffset ≤ u.buffer.buffer.length) ∧
    u.buffer.view = u.queue ∧
    (∀ len, u.buffer.writeOffset + len < 2 ^ 64 → (u.buffer.prepareWrite len).view = u.queue) ∧
    ∀ left, (u.buffer.extract left).1 = u.queue ∧ (u.buffer.extract left).2.view = [] := by
  have start : Use.Fifo {} := ⟨⟨Nat.le_refl _, Nat.le_refl _⟩, rfl, Nat.le_refl _⟩
  obtain ⟨valid, same, -⟩ := run.invariant start fun fifo _ stepped => fifo.step stepped
  refine ⟨⟨valid.ordered, valid.inside⟩, same,
    fun len _ => (view_prepareWrite valid).trans same, ?_⟩
  intro left
  obtain ⟨whole, -, empty⟩ := valid.extract left
  exact ⟨whole.trans same, empty⟩

theorem fifo_two_bytes : ∃ u, Run Use.step free {}
    [.prepareWrite 2, .commitWrite [1], .commitWrite [2], .consume 1] u ∧ u.buffer.view = [2] := by
  have run := Run.of_exec (rfl : exec Use.step {}
    [.prepareWrite 2, .commitWrite [1], .commitWrite [2], .consume 1] = some _)
  exact ⟨_, run, (fifo run).2.1⟩

/-- Each of two commits takes no more than was prepared, and the second leaves the buffer. -/
theorem commit_again_outside :
    ¬ (({} : StringBuffer).prepareWrite 1 |>.commitWrite 1 |>.commitWrite 1).Valid :=
  fun valid => absurd valid.inside (by decide)

end StringBuffer
end Nitrocoro.Utils
