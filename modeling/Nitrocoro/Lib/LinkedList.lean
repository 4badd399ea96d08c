import Mathlib.Data.List.Nodup
import Mathlib.Logic.Function.Basic

/-! Singly linked lists in a store of `next` pointers. The list that a head
pointer denotes is unique and depends only on the pointers of its members. A list
may have gaps where a pointer is still to be written. -/
namespace LinkedList
open Function
variable {Id : Type} {next : Id → Option Id}

/-- Following `next` from `head` visits exactly these nodes and ends in a null pointer. -/
def Chain (next : Id → Option Id) : Option Id → List Id → Prop
  | head, [] => head = none
  | head, node :: rest => head = some node ∧ Chain next (next node) rest

namespace Chain

@[simp] theorem nil_iff : Chain next head [] ↔ head = none := Iff.rfl

@[simp] theorem cons_iff :
    Chain next head (node :: rest) ↔ head = some node ∧ Chain next (next node) rest := Iff.rfl

@[simp] theorem none_iff : Chain next none nodes ↔ nodes = [] := by
  cases nodes <;> simp

theorem some_iff :
    Chain next (some node) nodes ↔ ∃ rest, nodes = node :: rest ∧ Chain next (next node) rest := by
  cases nodes with
  | nil => simp
  | cons first rest =>
    simp only [cons_iff, Option.some.injEq, List.cons.injEq]
    constructor
    · rintro ⟨rfl, chain⟩
      exact ⟨rest, ⟨rfl, rfl⟩, chain⟩
    · rintro ⟨_, ⟨rfl, rfl⟩, chain⟩
      exact ⟨rfl, chain⟩

theorem unique (first : Chain next head nodes) (second : Chain next head nodes') :
    nodes = nodes' := by
  induction nodes generalizing head nodes' with
  | nil =>
    obtain rfl := first
    exact (none_iff.mp second).symm
  | cons node rest ih =>
    obtain ⟨rfl, first⟩ := first
    obtain ⟨rest', rfl, tail⟩ := some_iff.mp second
    rw [ih first tail]

theorem update [DecidableEq Id] (chain : Chain next head nodes) (outside : node ∉ nodes)
    (value : Option Id) : Chain (update next node value) head nodes := by
  induction nodes generalizing head with
  | nil => exact chain
  | cons first rest ih =>
    obtain ⟨rfl, chain⟩ := chain
    simp only [List.mem_cons, not_or] at outside
    refine ⟨rfl, ?_⟩
    rw [update_of_ne (Ne.symm outside.1)]
    exact ih chain outside.2

end Chain

theorem pair_infix_tail {a : Id} {nodes : List Id} (here : [node, after] <:+: a :: nodes)
    (other : node ≠ a) : [node, after] <:+: nodes := by
  rcases List.infix_cons_iff.mp here with first | later
  · exact absurd (List.cons_prefix_cons.mp first).1 other
  · exact later

theorem pair_infix_head {a b : Id} {nodes : List Id} (here : [a, after] <:+: a :: b :: nodes)
    (nodup : (a :: b :: nodes).Nodup) : after = b := by
  rcases List.infix_cons_iff.mp here with first | later
  · exact (List.cons_prefix_cons.mp (List.cons_prefix_cons.mp first).2).1
  · exact absurd (later.subset List.mem_cons_self) (List.nodup_cons.mp nodup).1

theorem pair_infix_unique {m m' : Id} {nodes : List Id} (first : [node, m] <:+: nodes)
    (second : [node, m'] <:+: nodes) (nodup : nodes.Nodup) : m = m' := by
  induction nodes with
  | nil => simpa using first.length_le
  | cons a nodes ih =>
    by_cases same : node = a
    · subst same
      cases nodes with
      | nil => simpa using first.length_le
      | cons b nodes => rw [pair_infix_head first nodup, pair_infix_head second nodup]
    · exact ih (pair_infix_tail first same) (pair_infix_tail second same)
        (List.nodup_cons.mp nodup).2

/-- The nodes behind `node`, where each pointer is written or its store is in `gaps`. -/
def Follows (next : Id → Option Id) (gaps : Id → Id → Prop) : Id → List Id → Prop
  | node, [] => next node = none
  | node, after :: rest =>
    (next node = some after ∨ next node = none ∧ gaps node after) ∧ Follows next gaps after rest

namespace Follows
variable {gaps gaps' : Id → Id → Prop} {node after last fresh : Id} {rest : List Id}

theorem gap_of_none (follows : Follows next gaps node (after :: rest)) (null : next node = none) :
    gaps node after := by
  rcases follows.1 with written | ⟨-, gap⟩
  · rw [null] at written
    cases written
  · exact gap

section
variable (follows : Follows next gaps node rest)
include follows

theorem eq_cons (written : next node = some after) : ∃ more, rest = after :: more := by
  cases rest with
  | nil =>
    rw [follows] at written
    cases written
  | cons first more =>
    rcases follows.1 with same | ⟨null, -⟩
    · cases written.symm.trans same
      exact ⟨more, rfl⟩
    · rw [null] at written
      cases written

theorem mem_of_next (written : next node = some after) : after ∈ rest := by
  obtain ⟨-, rfl⟩ := follows.eq_cons written
  exact List.mem_cons_self

theorem mono
    (keeps : ∀ a ∈ node :: rest, ∀ b, gaps a b → gaps' a b) : Follows next gaps' node rest := by
  induction rest generalizing node with
  | nil => exact follows
  | cons after rest ih =>
    refine ⟨?_, ih follows.2 fun a mem => keeps a (List.mem_cons_of_mem _ mem)⟩
    exact follows.1.imp_right fun gap => ⟨gap.1, keeps node List.mem_cons_self _ gap.2⟩

theorem congr {next' : Id → Option Id}
    (same : ∀ a ∈ node :: rest, next' a = next a) : Follows next' gaps node rest := by
  induction rest generalizing node with
  | nil => exact (same node List.mem_cons_self).trans follows
  | cons after rest ih =>
    refine ⟨?_, ih follows.2 fun a mem => same a (List.mem_cons_of_mem _ mem)⟩
    rw [same node List.mem_cons_self]
    exact follows.1

theorem next_last (ends : (node :: rest).getLast? = some a) : next a = none := by
  induction rest generalizing node with
  | nil =>
    cases ends
    exact follows
  | cons after rest ih => exact ih follows.2 (by rwa [List.getLast?_cons_cons] at ends)

theorem extend (ends : (node :: rest).getLast? = some last)
    (null : next fresh = none) (gap : gaps last fresh) :
    Follows next gaps node (rest ++ [fresh]) := by
  induction rest generalizing node with
  | nil =>
    cases ends
    exact ⟨.inr ⟨follows, gap⟩, null⟩
  | cons after rest ih =>
    exact ⟨follows.1, ih follows.2 (by rwa [List.getLast?_cons_cons] at ends)⟩

theorem link [DecidableEq Id] (nodup : (node :: rest).Nodup)
    (here : [last, fresh] <:+: node :: rest) (keeps : ∀ a b, a ≠ last → gaps a b → gaps' a b) :
    Follows (update next last (some fresh)) gaps' node rest := by
  induction rest generalizing node with
  | nil => simpa using here.length_le
  | cons after rest ih =>
    by_cases same : node = last
    · subst same
      have second : fresh = after := pair_infix_head here nodup
      -- the node whose pointer is written does not occur again
      refine ⟨.inl (by rw [update_self, second]), ?_⟩
      have outside : ∀ a ∈ after :: rest, a ≠ node := by
        rintro a mem rfl
        exact (List.nodup_cons.mp nodup).1 mem
      exact (follows.2.congr fun a mem => update_of_ne (outside a mem) _ _).mono
        fun a mem b gap => keeps a b (outside a mem) gap
    · have later := pair_infix_tail here (Ne.symm same)
      refine ⟨?_, ih follows.2 (List.nodup_cons.mp nodup).2 later⟩
      rw [update_of_ne same]
      exact follows.1.imp_right fun gap => ⟨gap.1, keeps node _ same gap.2⟩

end

end Follows
end LinkedList
