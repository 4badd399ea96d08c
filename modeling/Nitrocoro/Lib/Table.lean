import Mathlib.Algebra.BigOperators.Group.Finset.Basic

/-! Sums over the first entries of a table whose entries are named by a counter:
what one update, or one new entry, changes. -/
namespace Table
open Finset Function
variable {α M : Type} [AddCommMonoid M]

theorem sum_update (weight : α → M) (table : Nat → α) (entry : α) (known : i < n) :
    ∑ j ∈ range n, weight (update table i entry j) + weight (table i) =
      ∑ j ∈ range n, weight (table j) + weight entry := by
  have old := add_sum_erase (range n) (fun j => weight (table j)) (mem_range.mpr known)
  have new := add_sum_erase (range n) (fun j => weight (update table i entry j))
    (mem_range.mpr known)
  have same : ∑ j ∈ (range n).erase i, weight (update table i entry j) =
      ∑ j ∈ (range n).erase i, weight (table j) := by
    refine sum_congr rfl fun j mem => ?_
    rw [update_of_ne (ne_of_mem_erase mem)]
  rw [← old, ← new, same, update_self]
  ac_rfl

theorem sum_update_next (weight : α → M) (table : Nat → α) (entry : α) :
    ∑ j ∈ range (n + 1), weight (update table n entry j) =
      ∑ j ∈ range n, weight (table j) + weight entry := by
  rw [sum_range_succ, update_self]
  congr 1
  refine sum_congr rfl fun j mem => ?_
  rw [update_of_ne (mem_range.mp mem).ne]

end Table
