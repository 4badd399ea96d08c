import Mathlib.Data.List.Basic
import Mathlib.Data.List.Chain
import Mathlib.Data.List.GetD
import Mathlib.Data.List.Infix
import Mathlib.Data.List.Nodup
import Mathlib.Logic.Function.Basic

/-! Blocks that several owners put on one wire, each in as many pieces as the wire takes. An element
on the wire knows its block and its place there, so that the wire itself shows whether a block was
torn. -/
namespace Blocks
open List

structure Placed (α : Type) where
  item : α
  block : Nat
  index : Nat
  deriving DecidableEq

def place (n : Nat) (items : List α) : List (Placed α) :=
  items.mapIdx fun index item => ⟨item, n, index⟩

@[simp] theorem length_place (n : Nat) (items : List α) : (place n items).length = items.length :=
  length_mapIdx

theorem place_getElem? {items : List α} (here : (place n items)[j]? = some a) :
    a.block = n ∧ a.index = j ∧ j < items.length := by
  rw [place, getElem?_mapIdx] at here
  obtain ⟨item, there, rfl⟩ := Option.map_eq_some_iff.mp here
  exact ⟨rfl, rfl, (List.getElem?_eq_some_iff.mp there).1⟩

theorem mem_place {items : List α} (mem : a ∈ place n items) :
    a.block = n ∧ a.index < items.length := by
  obtain ⟨j, here⟩ := mem_iff_getElem?.mp mem
  obtain ⟨block, rfl, below⟩ := place_getElem? here
  exact ⟨block, below⟩

theorem index_getLast? {items : List α} (part : l <+: place n items) (last : a ∈ l.getLast?) :
    a.block = n ∧ a.index + 1 = l.length := by
  rw [getLast?_eq_getElem?] at last
  have below := (List.getElem?_eq_some_iff.mp last).1
  obtain ⟨more, whole⟩ := part
  have here : (place n items)[l.length - 1]? = some a := by
    rw [← whole, getElem?_append_left below, last]
  obtain ⟨block, index, -⟩ := place_getElem? here
  exact ⟨block, by omega⟩

def count (n : Nat) (wire : List (Placed α)) : Nat := wire.countP (·.block = n)

theorem count_of_forall {l : List (Placed α)} (all : ∀ a ∈ l, a.block = k) :
    count n l = if k = n then l.length else 0 := by
  split
  · rename_i same
    apply countP_eq_length.mpr
    intro a mem
    simpa using (all a mem).trans same
  · rename_i other
    apply countP_eq_zero.mpr
    intro a mem
    simpa [all a mem] using other

end Blocks

/-- The blocks in the order in which they were begun, what each owner has still to put of its block,
and the wire. -/
structure Blocks (Id α : Type) where
  blocks : List (List α) := []
  pending : Id → Option (Nat × List (Blocks.Placed α)) := fun _ => none
  wire : List (Blocks.Placed α) := []

namespace Blocks
open List
variable {Id α : Type} {o o' : Blocks Id α} {i : Id} {n m k : Nat} {left : List (Placed α)}

def block (o : Blocks Id α) (n : Nat) : List (Placed α) := place n (o.blocks.getD n [])

/-- The wire has whole blocks one after the other, and then a part of another one. -/
def Whole (o : Blocks Id α) : Prop :=
  ∃ (done : List Nat) (k : Nat) (part : List (Placed α)),
    o.wire = done.flatMap o.block ++ part ∧ part <+: o.block k ∧ done.Nodup ∧
    k ∉ done ∧ ∀ n ∈ done, n < o.blocks.length

/-- An element of another block follows one that is not the last of its own. -/
def Torn (o : Blocks Id α) : Prop :=
  ∃ before a b after, o.wire = before ++ a :: b :: after ∧ b.block ≠ a.block ∧
    a.index + 1 < (o.blocks.getD a.block []).length

/-- The wire ends with the last element of a block, or the owner goes on with the block that is
there. -/
def InTurn (i : Id) (o : Blocks Id α) : Prop :=
  ∀ a ∈ o.wire.getLast?, a.index + 1 = (o.blocks.getD a.block []).length ∨
    ∀ n left, o.pending i = some (n, left) → n = a.block

/-- No block is under way, and none was left in part. -/
def Idle (o : Blocks Id α) : Prop :=
  (∀ i, o.pending i = none) ∧
    ∀ a ∈ o.wire.getLast?, a.index + 1 = (o.blocks.getD a.block []).length

/-- At most one block is under way, and its owner is in turn. -/
def Alone (o : Blocks Id α) : Prop :=
  ∀ i, o.pending i ≠ none → o.InTurn i ∧ ∀ j ≠ i, o.pending j = none

section Wire

theorem block_of_lt (grows : o.blocks <+: o'.blocks) (below : n < o.blocks.length) :
    o'.blocks.getD n [] = o.blocks.getD n [] := by
  obtain ⟨more, same⟩ := grows
  rw [← same, getD_append _ _ _ _ below]

theorem lt_of_index (inside : j < (o.blocks.getD n []).length) : n < o.blocks.length := by
  by_contra beyond
  rw [getD_eq_default _ _ (Nat.le_of_not_lt beyond)] at inside
  exact absurd inside (Nat.not_lt_zero _)

theorem Torn.grow (torn : o.Torn) (wire : o.wire <+: o'.wire) (grows : o.blocks <+: o'.blocks) :
    o'.Torn := by
  obtain ⟨before, a, b, after, split, other, inside⟩ := torn
  obtain ⟨more, whole⟩ := wire
  refine ⟨before, a, b, after ++ more, ?_, other, ?_⟩
  · rw [← whole, split, append_assoc, cons_append, cons_append]
  · rwa [block_of_lt grows (lt_of_index inside)]

/-- On a wire of whole blocks an element is followed by one of its block, or ends it. -/
theorem Whole.chain (whole : o.Whole) : o.wire.IsChain fun a b =>
    b.block = a.block ∨ a.index + 1 = (o.blocks.getD a.block []).length := by
  obtain ⟨done, k, part, wire, inside, -⟩ := whole
  have within : ∀ n l, l <+: o.block n → l.IsChain fun a b =>
      b.block = a.block ∨ a.index + 1 = (o.blocks.getD a.block []).length := by
    intro n l part
    apply List.Pairwise.isChain
    apply pairwise_of_forall_mem_list
    intro a mem b mem'
    exact .inl ((mem_place (part.subset mem')).1.trans (mem_place (part.subset mem)).1.symm)
  rw [wire]
  clear wire
  induction done with
  | nil => exact within k part inside
  | cons n done ih =>
    rw [flatMap_cons, append_assoc, isChain_append]
    refine ⟨within n _ (prefix_refl _), ih, fun a last b _ => .inr ?_⟩
    obtain ⟨same, index⟩ := index_getLast? (prefix_refl _) last
    rw [index, same]
    exact length_place n _

theorem Torn.not_whole (torn : o.Torn) : ¬ o.Whole := by
  intro whole
  obtain ⟨before, a, b, after, split, other, inside⟩ := torn
  have chain := whole.chain
  rw [split, isChain_append_cons_cons] at chain
  rcases chain.2.1 with same | last
  · exact other same
  · exact absurd last (Nat.ne_of_lt inside)

theorem mem_wire (whole : o.Whole) (mem : a ∈ o.wire) :
    a.index < (o.blocks.getD a.block []).length := by
  obtain ⟨done, k, part, wire, inside, -⟩ := whole
  have placed : ∃ n, a ∈ o.block n := by
    rw [wire] at mem
    rcases mem_append.mp mem with early | late
    · obtain ⟨n, -, here⟩ := mem_flatMap.mp early
      exact ⟨n, here⟩
    · exact ⟨k, inside.subset late⟩
  obtain ⟨n, here⟩ := placed
  obtain ⟨rfl, below⟩ := mem_place here
  exact below

theorem count_flatMap {done : List Nat} (nodup : done.Nodup) (n : Nat) :
    count n (done.flatMap o.block) = if n ∈ done then (o.block n).length else 0 := by
  induction done with
  | nil => rfl
  | cons d done ih =>
    obtain ⟨fresh, nodup⟩ := nodup_cons.mp nodup
    have first : count n (o.block d) = if d = n then (o.block d).length else 0 :=
      count_of_forall fun a mem => (mem_place mem).1
    rw [flatMap_cons, count, countP_append]
    show count n (o.block d) + count n (done.flatMap o.block) = _
    rw [first, ih nodup]
    by_cases same : d = n
    · subst same
      simp [fresh]
    · simp [same, Ne.symm same]

theorem count_wire {done : List Nat} {part : List (Placed α)} (nodup : done.Nodup)
    (wire : o.wire = done.flatMap o.block ++ part) (inside : part <+: o.block k) (n : Nat) :
    count n o.wire =
      (if n ∈ done then (o.block n).length else 0) + if k = n then part.length else 0 := by
  have last : count n part = if k = n then part.length else 0 :=
    count_of_forall fun a mem => (mem_place (inside.subset mem)).1
  rw [wire, count, countP_append]
  show count n (done.flatMap o.block) + count n part = _
  rw [count_flatMap nodup, last]

/-- What goes out in turn continues the part of a block, or begins one behind whole blocks. -/
theorem Whole.continue (whole : o.Whole) (known : n < o.blocks.length) (some_ : left ≠ [])
    (rest : left = (o.block n).drop (count n o.wire))
    (turn : ∀ a ∈ o.wire.getLast?, a.index + 1 = (o.blocks.getD a.block []).length ∨ n = a.block)
    (m : Nat) (same : o'.blocks = o.blocks) (wire' : o'.wire = o.wire ++ left.take m) :
    o'.Whole := by
  obtain ⟨done, k, part, wire, inside, nodup, fresh, below⟩ := whole
  have block : o'.block = o.block := by
    funext n
    rw [Blocks.block, Blocks.block, same]
  have sent := count_wire nodup wire inside n
  have unsent : n ∉ done := by
    intro mem
    rw [if_pos mem] at sent
    apply some_
    rw [rest, drop_eq_nil_iff]
    omega
  rw [if_neg unsent, Nat.zero_add] at sent
  rw [Whole, block, wire', same, wire]
  by_cases here : k = n
  · -- the block that is there goes on
    subst here
    rw [if_pos rfl] at sent
    rw [sent] at rest
    obtain ⟨more, split⟩ := inside
    rw [← split, drop_left] at rest
    refine ⟨done, k, part ++ left.take m, append_assoc .., ?_, nodup, fresh, below⟩
    rw [rest, ← split, prefix_append_right_inj]
    exact take_prefix _ _
  · rw [if_neg here] at sent
    rw [sent] at rest
    by_cases nothing : part = []
    · refine ⟨done, n, left.take m, by rw [nothing, append_nil], ?_, nodup, unsent, below⟩
      rw [rest]
      exact take_prefix _ _
    -- a block that is there is a whole one
    obtain ⟨a, last⟩ := Option.ne_none_iff_exists'.mp
      (mt getLast?_eq_none_iff.mp nothing)
    obtain ⟨block_, index⟩ := index_getLast? inside last
    have through : part = o.block k := by
      have ends : a ∈ o.wire.getLast? := by
        rw [wire, getLast?_append, last]
        rfl
      rcases turn a ends with complete | own
      · apply inside.eq_of_length
        rw [← index, complete, block_]
        exact (length_place k _).symm
      · exact absurd (own.trans block_).symm here
    have early : k < o.blocks.length := by
      have long : 0 < (o.block k).length := length_pos_iff.mpr (through ▸ nothing)
      rw [Blocks.block, length_place] at long
      exact lt_of_index long
    refine ⟨done ++ [k], n, left.take m, ?_, ?_, ?_, ?_, ?_⟩
    · rw [flatMap_append, flatMap_singleton, through]
    · rw [rest]
      exact take_prefix _ _
    · exact nodup_append.mpr ⟨nodup, nodup_singleton k, fun x mem y new => by
        rintro rfl
        exact fresh (mem_singleton.mp new ▸ mem)⟩
    · simp [unsent, Ne.symm here]
    intro x mem
    rcases mem_append.mp mem with before | new
    · exact below x before
    · rw [mem_singleton.mp new]
      exact early

end Wire

section Owners
variable [DecidableEq Id]

def begin (i : Id) (items : List α) (o : Blocks Id α) : Blocks Id α :=
  { o with
    blocks := o.blocks ++ [items]
    pending := Function.update o.pending i (some (o.blocks.length, place o.blocks.length items)) }

/-- The wire takes the next `m` elements of an owner's block; `none` if it has fewer. The flag says
whether the block is through. -/
def put (i : Id) (m : Nat) (o : Blocks Id α) : Option (Blocks Id α × Bool) :=
  match o.pending i with
  | none => none
  | some (n, left) =>
    if m = 0 ∨ left.length < m then none
    else if m = left.length then
      some ({ o with wire := o.wire ++ left, pending := Function.update o.pending i none }, true)
    else
      some ({ o with
        wire := o.wire ++ left.take m
        pending := Function.update o.pending i (some (n, left.drop m)) }, false)

def abandon (i : Id) (o : Blocks Id α) : Blocks Id α :=
  { o with pending := Function.update o.pending i none }

/-- The owners have what the wire does not have of their blocks, and each its own block. -/
structure Inv (o : Blocks Id α) : Prop where
  whole : o.Whole
  pending : ∀ i n left, o.pending i = some (n, left) → n < o.blocks.length ∧ left ≠ [] ∧
    left = (o.block n).drop (count n o.wire)
  apart : ∀ i j n left left', o.pending i = some (n, left) → o.pending j = some (n, left') → i = j

theorem put_cases (putted : o.put i m = some (o', through)) :
    ∃ n left, o.pending i = some (n, left) ∧ 0 < m ∧ m ≤ left.length ∧
      o'.blocks = o.blocks ∧ o'.wire = o.wire ++ left.take m ∧
      o'.pending = Function.update o.pending i
        (if m = left.length then none else some (n, left.drop m)) := by
  simp only [put] at putted
  split at putted
  · cases putted
  rename_i n left here
  split at putted
  · cases putted
  refine ⟨n, left, here, by omega, by omega, ?_⟩
  split at putted
  · rename_i all
    cases putted
    exact ⟨rfl, by rw [all, take_length], by rw [if_pos all]⟩
  · rename_i more
    cases putted
    exact ⟨rfl, rfl, by rw [if_neg more]⟩

omit [DecidableEq Id] in
theorem Inv.empty : ({} : Blocks Id α).Inv where
  whole := ⟨[], 0, [], rfl, nil_prefix, nodup_nil, nofun, nofun⟩
  pending _ _ _ := nofun
  apart _ _ _ _ _ := nofun

omit [DecidableEq Id] in
theorem Inv.block_of_mem (inv : o.Inv) (here : o.pending i = some (n, left)) (mem : a ∈ left) :
    a.block = n := by
  rw [(inv.pending i n left here).2.2] at mem
  exact (mem_place (mem_of_mem_drop mem)).1

theorem Inv.begin (inv : o.Inv) (i : Id) {items : List α} (some_ : items ≠ []) :
    (o.begin i items).Inv := by
  have grows : o.blocks <+: (o.begin i items).blocks := prefix_append _ _
  have same : ∀ n < o.blocks.length, (o.begin i items).block n = o.block n := by
    intro n below
    rw [block, block, block_of_lt grows below]
  have last : (o.begin i items).block o.blocks.length = place o.blocks.length items := by
    rw [block, Blocks.begin, getD_append_right _ _ _ _ (Nat.le_refl _), Nat.sub_self]
    rfl
  have unseen : count o.blocks.length o.wire = 0 := by
    apply countP_eq_zero.mpr
    intro a mem
    have below := lt_of_index (mem_wire inv.whole mem)
    simpa using Nat.ne_of_lt below
  have known : ∀ j n left, (o.begin i items).pending j = some (n, left) →
      j = i ∧ n = o.blocks.length ∧ left = place o.blocks.length items ∨
        j ≠ i ∧ o.pending j = some (n, left) ∧ n < o.blocks.length := by
    intro j n left here
    simp only [Blocks.begin, Function.update_apply] at here
    split at here
    · rename_i own
      cases here
      exact .inl ⟨own, rfl, rfl⟩
    · rename_i other
      exact .inr ⟨other, here, (inv.pending j n left here).1⟩
  constructor
  · obtain ⟨done, k, part, wire, inside, nodup, fresh, below⟩ := inv.whole
    refine ⟨done, k, part, ?_, ?_, nodup, fresh, fun n mem =>
      Nat.lt_of_lt_of_le (below n mem) grows.length_le⟩
    · rw [flatMap_congr fun n mem => same n (below n mem)]
      exact wire
    by_cases old : k < o.blocks.length
    · rwa [same k old]
    have none : o.block k = [] := by
      rw [block, getD_eq_default _ _ (Nat.le_of_not_lt old)]
      rfl
    rw [none, prefix_nil] at inside
    rw [inside]
    exact nil_prefix
  · intro j n left here
    rcases known j n left here with ⟨-, rfl, rfl⟩ | ⟨-, here, below⟩
    · refine ⟨?_, ?_, ?_⟩
      · simp [Blocks.begin]
      · rw [← length_pos_iff, length_place]
        exact length_pos_iff.mpr some_
      · rw [last]
        exact congrArg (drop · _) unseen.symm
    · obtain ⟨-, more, rest⟩ := inv.pending j n left here
      refine ⟨Nat.lt_of_lt_of_le below grows.length_le, more, ?_⟩
      rw [same n below]
      exact rest
  · intro j k n left left' here there
    rcases known j n left here with ⟨rfl, rfl, -⟩ | ⟨-, here, below⟩
    · rcases known k _ left' there with ⟨rfl, -⟩ | ⟨-, -, below⟩
      · rfl
      · exact absurd below (Nat.lt_irrefl _)
    · rcases known k _ left' there with ⟨-, rfl, -⟩ | ⟨-, there, -⟩
      · exact absurd below (Nat.lt_irrefl _)
      · exact inv.apart j k n left left' here there

theorem Inv.abandon (inv : o.Inv) (i : Id) : (o.abandon i).Inv := by
  have known : ∀ j n left, (o.abandon i).pending j = some (n, left) →
      o.pending j = some (n, left) := by
    intro j n left here
    simp only [Blocks.abandon, Function.update_apply] at here
    split at here
    · cases here
    · exact here
  constructor
  · exact inv.whole
  · intro j n left here
    exact inv.pending j n left (known j n left here)
  · intro j k n left left' here there
    exact inv.apart j k n left left' (known j n left here) (known k n left' there)

theorem Inv.put (inv : o.Inv) (turn : o.InTurn i) (putted : o.put i m = some (o', through)) :
    o'.Inv := by
  obtain ⟨n, left, here, -, enough, blocks, wire, pending⟩ := put_cases putted
  obtain ⟨known, some_, rest⟩ := inv.pending i n left here
  have block : o'.block = o.block := by
    funext n
    rw [Blocks.block, Blocks.block, blocks]
  have counts : ∀ k, count k o'.wire = count k o.wire + if n = k then m else 0 := by
    intro k
    have new : count k (left.take m) = if n = k then (left.take m).length else 0 :=
      count_of_forall fun a mem => inv.block_of_mem here (mem_of_mem_take mem)
    rw [length_take, Nat.min_eq_left enough] at new
    rw [wire, ← new]
    exact countP_append
  have others : ∀ j k more, o'.pending j = some (k, more) →
      j = i ∧ k = n ∧ m ≠ left.length ∧ more = left.drop m ∨
        j ≠ i ∧ o.pending j = some (k, more) := by
    intro j k more there
    rw [pending, Function.update_apply] at there
    split at there
    · rename_i same
      split at there
      · cases there
      · rename_i unfinished
        cases there
        exact .inl ⟨same, rfl, unfinished, rfl⟩
    · rename_i other
      exact .inr ⟨other, there⟩
  constructor
  · apply inv.whole.continue known some_ rest _ m blocks wire
    intro a last
    rcases turn a last with complete | mine
    · exact .inl complete
    · exact .inr (mine n left here)
  · intro j k more there
    rw [blocks, block, counts]
    rcases others j k more there with ⟨-, rfl, unfinished, rfl⟩ | ⟨other, there⟩
    · refine ⟨known, ?_, ?_⟩
      · rw [Ne, drop_eq_nil_iff]
        omega
      · rw [if_pos rfl, ← drop_drop, ← rest]
    obtain ⟨below, some', rest'⟩ := inv.pending j k more there
    have apart : n ≠ k := by
      rintro rfl
      exact other (inv.apart j i n more left there here)
    rw [if_neg apart]
    exact ⟨below, some', rest'⟩
  · intro j k number more more' there there'
    rcases others j number more there with ⟨rfl, rfl, -⟩ | ⟨-, there⟩
    · rcases others k _ more' there' with ⟨rfl, -⟩ | ⟨-, there'⟩
      · rfl
      · exact inv.apart j k _ left more' here there'
    · rcases others k _ more' there' with ⟨rfl, rfl, -⟩ | ⟨-, there'⟩
      · exact inv.apart j k _ more left there here
      · exact inv.apart j k number more more' there there'

theorem Inv.put_torn (inv : o.Inv) (early : ¬ o.InTurn i)
    (putted : o.put i m = some (o', through)) : o'.Torn := by
  obtain ⟨n, left, here, positive, -, blocks, wire, -⟩ := put_cases putted
  obtain ⟨-, some_, -⟩ := inv.pending i n left here
  simp only [InTurn, not_forall, not_or] at early
  obtain ⟨a, last, unfinished, n', left', here', other⟩ := early
  cases here'.symm.trans here
  obtain ⟨before, split⟩ := getLast?_eq_some_iff.mp last
  have inside := mem_wire inv.whole (mem_of_getLast? last)
  obtain ⟨b, after, start⟩ := exists_cons_of_ne_nil some_
  obtain ⟨m, rfl⟩ := Nat.exists_eq_succ_of_ne_zero (Nat.ne_of_gt positive)
  have own := inv.block_of_mem here (start ▸ mem_cons_self)
  refine ⟨before, a, b, after.take m, ?_, ?_, ?_⟩
  · rw [wire, split, start, append_assoc]
    rfl
  · rw [own]
    exact other
  · rw [blocks]
    omega

theorem Idle.begin (idle : o.Idle) (i : Id) (items : List α) : (o.begin i items).Alone := by
  intro j under
  have others : ∀ k ≠ i, (o.begin i items).pending k = none := fun k other =>
    (Function.update_of_ne other ..).trans (idle.1 k)
  obtain rfl : j = i := by_contra fun other => under (others j other)
  refine ⟨fun a last => .inl ?_, others⟩
  have ends := idle.2 a last
  rw [block_of_lt (prefix_append _ _) (lt_of_index (j := a.index) (by omega))]
  exact ends

theorem Alone.abandon (alone : o.Alone) (i : Id) : (o.abandon i).Alone := by
  intro j under
  have other : j ≠ i := by
    rintro rfl
    exact under (Function.update_self ..)
  have before : o.pending j ≠ none := Function.update_of_ne other _ o.pending ▸ under
  have none := (alone j before).2 i other.symm
  have same : o.abandon i = o := by
    rw [Blocks.abandon, ← none, Function.update_eq_self]
  rw [same]
  exact alone j before

theorem Alone.put (alone : o.Alone) (inv : o.Inv) (putted : o.put i m = some (o', through)) :
    o'.Inv ∧ o'.Alone := by
  obtain ⟨n, left, here, positive, -, -, wire, pending⟩ := put_cases putted
  obtain ⟨turn, others⟩ := alone i (by rw [here]; nofun)
  have others' : ∀ k ≠ i, o'.pending k = none := fun k other => by
    rw [pending, Function.update_of_ne other, others k other]
  refine ⟨inv.put turn putted, fun j under => ?_⟩
  obtain rfl : j = i := by_contra fun other => under (others' j other)
  refine ⟨fun a last => .inr fun k more there => ?_, others'⟩
  have some_ : left.take m ≠ [] := by
    simp [take_eq_nil_iff, Nat.ne_of_gt positive, (inv.pending j n left here).2.1]
  rw [wire, getLast?_append_of_ne_nil _ some_] at last
  rw [inv.block_of_mem here (mem_of_mem_take (mem_of_getLast? last))]
  rw [pending, Function.update_self] at there
  split at there
  · cases there
  · cases there
    rfl

theorem put_grows (putted : o.put i m = some (o', through)) :
    o.wire <+: o'.wire ∧ o.blocks <+: o'.blocks := by
  obtain ⟨n, left, -, -, -, blocks, wire, -⟩ := put_cases putted
  rw [blocks, wire]
  exact ⟨prefix_append _ _, prefix_refl _⟩

end Owners

end Blocks
