import Mathlib.Data.List.Basic
import Mathlib.Data.List.Infix

/-! Output that several owners put on one wire piece by piece. Each element carries its position in
the whole output, so that the wire itself shows whether something was overtaken or left out. -/
namespace Lane
open List hiding after

/-- What is left of the output that an owner took over; no owner is left for a piece that was
given up. -/
structure Piece (Id α : Type) where
  owner : Option Id
  rest : List (α × Nat)

end Lane

/-- The output so far, the part of it that nobody has taken over, the pieces in the order in which
they were taken over, and what is on the wire. -/
structure Lane (Id α : Type) where
  produced : List α := []
  held : List (α × Nat) := []
  pieces : List (Lane.Piece Id α) := []
  wire : List (α × Nat) := []

namespace Lane
open List hiding after
variable {Id α : Type}

def produce (output : List α) (lane : Lane Id α) : Lane Id α :=
  { lane with
    produced := lane.produced ++ output
    held := lane.held ++ output.zipIdx lane.produced.length }

def begin (i : Id) (lane : Lane Id α) : Lane Id α :=
  { lane with held := [], pieces := lane.pieces ++ [⟨some i, lane.held⟩] }

/-- Nothing is lost, doubled or out of order: what is not on the wire is in the pieces or held. -/
structure Whole (lane : Lane Id α) : Prop where
  all : lane.wire ++ (lane.pieces.flatMap Piece.rest ++ lane.held) = lane.produced.zipIdx
  proper : ∀ piece ∈ lane.pieces, piece.rest ≠ []

/-- Some element is not at its own position on the wire. -/
def Mixed (lane : Lane Id α) : Prop :=
  ∃ (k : Nat) (c : α × Nat), lane.wire[k]? = some c ∧ c.2 ≠ k

variable {lane : Lane Id α}

theorem Whole.ordered (whole : lane.Whole) : lane.wire <+: lane.produced.zipIdx :=
  ⟨_, whole.all⟩

theorem Mixed.not_ordered (mixed : lane.Mixed) : ¬ lane.wire <+: lane.produced.zipIdx := by
  obtain ⟨k, c, here, misplaced⟩ := mixed
  rintro ⟨more, split⟩
  have there : lane.produced.zipIdx[k]? = some c := by
    obtain ⟨below, -⟩ := List.getElem?_eq_some_iff.mp here
    rw [← split, getElem?_append_left below, here]
  rw [getElem?_zipIdx] at there
  obtain ⟨x, -, same⟩ := Option.map_eq_some_iff.mp there
  apply misplaced
  rw [← same]
  exact Nat.zero_add k

theorem Mixed.grow (mixed : lane.Mixed) {lane' : Lane Id α} (grows : lane.wire <+: lane'.wire) :
    lane'.Mixed := by
  obtain ⟨k, c, here, misplaced⟩ := mixed
  obtain ⟨more, split⟩ := grows
  obtain ⟨below, -⟩ := List.getElem?_eq_some_iff.mp here
  exact ⟨k, c, by rw [← split, getElem?_append_left below, here], misplaced⟩

theorem Whole.produce (whole : lane.Whole) (output : List α) : (lane.produce output).Whole where
  all := by
    simp only [Lane.produce, zipIdx_append, Nat.zero_add, ← whole.all, append_assoc]
  proper := whole.proper

theorem Whole.begin (whole : lane.Whole) (some : lane.held ≠ []) (i : Id) :
    (lane.begin i).Whole where
  all := by
    simpa [Lane.begin] using whole.all
  proper piece mem := by
    rcases mem_append.mp mem with earlier | last
    · exact whole.proper piece earlier
    · rw [mem_singleton.mp last]
      exact some

section Owned
variable [DecidableEq Id]

/-- The piece of an owner, between those that were taken over before and after it. -/
def split (i : Id) : List (Piece Id α) → Option (List (Piece Id α) × Piece Id α × List (Piece Id α))
  | [] => none
  | piece :: pieces =>
    if piece.owner = some i then some ([], piece, pieces)
    else (split i pieces).map fun (before, own, after) => (piece :: before, own, after)

theorem split_some {pieces : List (Piece Id α)} (found : split i pieces = some (before, own, after)) :
    pieces = before ++ own :: after ∧ own.owner = some i := by
  induction pieces generalizing before with
  | nil => cases found
  | cons piece pieces ih =>
    simp only [split] at found
    split at found
    · rename_i mine
      cases found
      exact ⟨rfl, mine⟩
    · obtain ⟨⟨first, mid, last⟩, later, same⟩ := Option.map_eq_some_iff.mp found
      cases same
      obtain ⟨cut, mine⟩ := ih later
      exact ⟨by rw [cut, cons_append], mine⟩

def Oldest (i : Id) (lane : Lane Id α) : Prop := (split i lane.pieces).all (·.1.isEmpty)

instance (i : Id) (lane : Lane Id α) : Decidable (lane.Oldest i) :=
  inferInstanceAs (Decidable (_ = true))

/-- The wire takes the next `n` elements of an owner's piece; `none` if it has fewer. The flag says
whether the piece is through. -/
def send (i : Id) (n : Nat) (lane : Lane Id α) : Option (Lane Id α × Bool) :=
  match split i lane.pieces with
  | none => none
  | some (before, own, after) =>
    if n = 0 ∨ own.rest.length < n then none
    else if n = own.rest.length then
      some ({ lane with wire := lane.wire ++ own.rest, pieces := before ++ after }, true)
    else
      some ({ lane with
        wire := lane.wire ++ own.rest.take n
        pieces := before ++ { own with rest := own.rest.drop n } :: after }, false)

def abandon (i : Id) (lane : Lane Id α) : Lane Id α :=
  match split i lane.pieces with
  | none => lane
  | some (before, own, after) =>
    { lane with pieces := before ++ { own with owner := none } :: after }

theorem Whole.abandon (whole : lane.Whole) (i : Id) : (lane.abandon i).Whole := by
  unfold Lane.abandon
  split
  · exact whole
  rename_i before own after found
  obtain ⟨cut, -⟩ := split_some found
  obtain ⟨all, proper⟩ := whole
  rw [cut] at all proper
  refine ⟨by simpa using all, fun piece mem => ?_⟩
  rcases mem_append.mp mem with earlier | later
  · exact proper piece (mem_append_left _ earlier)
  · rcases mem_cons.mp later with rfl | last
    · exact proper own (by simp)
    · exact proper piece (by simp [last])

theorem wire_send (sent : lane.send i n = some (lane', through)) : lane.wire <+: lane'.wire := by
  simp only [send] at sent
  split at sent
  · cases sent
  · split at sent
    · cases sent
    · split at sent <;> cases sent <;> exact prefix_append _ _

theorem wire_abandon (lane : Lane Id α) (i : Id) : (lane.abandon i).wire = lane.wire := by
  unfold abandon
  split <;> rfl

theorem Whole.send (whole : lane.Whole) (oldest : lane.Oldest i)
    (sent : lane.send i n = some (lane', through)) : lane'.Whole := by
  simp only [Lane.send] at sent
  split at sent
  · cases sent
  rename_i before own after found
  have first : before = [] := by
    rw [Oldest, found] at oldest
    simpa using oldest
  obtain ⟨cut, -⟩ := split_some found
  subst first
  obtain ⟨all, proper⟩ := whole
  rw [cut] at all proper
  rw [nil_append] at all
  rw [flatMap_cons] at all
  have later : ∀ piece ∈ after, piece.rest ≠ [] := fun piece mem => proper piece (by simp [mem])
  split at sent
  · cases sent
  split at sent
  · cases sent
    refine ⟨?_, later⟩
    rw [← all]
    simp only [nil_append, append_assoc]
  cases sent
  refine ⟨?_, fun piece mem => ?_⟩
  · rw [← all]
    simp only [nil_append, flatMap_cons, append_assoc]
    rw [← append_assoc (own.rest.take n), take_append_drop]
  rcases mem_cons.mp mem with rfl | last
  · intro nothing
    have := drop_eq_nil_iff.mp nothing
    omega
  · exact later piece last

theorem Whole.send_early (whole : lane.Whole) (early : ¬lane.Oldest i)
    (sent : lane.send i n = some (lane', through)) : lane'.Mixed := by
  simp only [Lane.send] at sent
  split at sent
  · cases sent
  rename_i before own after found
  obtain ⟨cut, -⟩ := split_some found
  have overtaken : before ≠ [] := by
    rintro rfl
    exact early (by rw [Oldest, found]; rfl)
  obtain ⟨all, proper⟩ := whole
  rw [cut] at all proper
  obtain ⟨skipped, others, rfl⟩ := exists_cons_of_ne_nil overtaken
  have gap : 0 < skipped.rest.length := length_pos_iff.mpr (proper skipped (by simp))
  obtain ⟨c, more, rest⟩ := exists_cons_of_ne_nil (proper own (by simp))
  -- the first element that is sent has its place behind the piece that is skipped
  have place : c.2 ≠ lane.wire.length := by
    have there : lane.produced.zipIdx[lane.wire.length +
        ((skipped :: others).flatMap Piece.rest).length]? = some c := by
      rw [← all, getElem?_append_right (Nat.le_add_right _ _), Nat.add_sub_cancel_left,
        flatMap_append, append_assoc, getElem?_append_right (Nat.le_refl _),
        Nat.sub_self, flatMap_cons, rest]
      rfl
    rw [getElem?_zipIdx] at there
    obtain ⟨x, -, same⟩ := Option.map_eq_some_iff.mp there
    rw [← same, flatMap_cons, length_append]
    omega
  split at sent
  · cases sent
  rename_i enough
  split at sent
  · cases sent
    refine ⟨lane.wire.length, c, ?_, place⟩
    rw [getElem?_append_right (Nat.le_refl _), Nat.sub_self, rest]
    rfl
  · cases sent
    refine ⟨lane.wire.length, c, ?_, place⟩
    obtain ⟨k, rfl⟩ := Nat.exists_eq_succ_of_ne_zero (fun zero => enough (.inl zero))
    rw [getElem?_append_right (Nat.le_refl _), Nat.sub_self, rest]
    rfl

end Owned

end Lane
