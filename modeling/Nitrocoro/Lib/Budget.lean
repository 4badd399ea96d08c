import Mathlib.Algebra.Ring.Nat
import Mathlib.Data.List.Infix

/-! Dropping the last elements of a list until the weights of the others are within a limit. -/
namespace Budget
open List hiding after
variable {α : Type} {weight : α → Nat} {limit used : Nat}

def total (weight : α → Nat) (xs : List α) : Nat := (xs.map weight).sum

/-- The longest initial part that is within the limit, beside what is used already. -/
def fit (weight : α → Nat) (limit : Nat) : Nat → List α → List α
  | _, [] => []
  | used, a :: rest =>
    if used + weight a ≤ limit then a :: fit weight limit (used + weight a) rest else []

@[simp]
theorem total_nil : total weight [] = 0 := rfl

@[simp]
theorem total_cons (a : α) (xs : List α) : total weight (a :: xs) = weight a + total weight xs := by
  simp [total]

theorem fit_of_le (within : used + total weight xs ≤ limit) : fit weight limit used xs = xs := by
  induction xs generalizing used with
  | nil => rfl
  | cons a xs ih =>
    rw [total_cons] at within
    rw [fit, if_pos (by omega), ih (by omega)]

theorem fit_append_of_lt (above : limit < used + total weight (xs ++ [a])) :
    fit weight limit used (xs ++ [a]) = fit weight limit used xs := by
  induction xs generalizing used with
  | nil =>
    simp only [nil_append, total_cons, total_nil] at above
    simp only [nil_append, fit]
    rw [if_neg (by omega)]
  | cons b xs ih =>
    simp only [cons_append, fit]
    rw [cons_append, total_cons] at above
    split
    · rw [ih (by omega)]
    · rfl

theorem fit_isPrefix (used : Nat) (xs : List α) : fit weight limit used xs <+: xs := by
  induction xs generalizing used with
  | nil => exact nil_prefix
  | cons a xs ih =>
    rw [fit]
    split
    · exact cons_prefix_cons.mpr ⟨rfl, ih _⟩
    · exact nil_prefix

theorem fit_le (within : used ≤ limit) (xs : List α) :
    used + total weight (fit weight limit used xs) ≤ limit := by
  induction xs generalizing used with
  | nil => exact within
  | cons a xs ih =>
    rw [fit]
    split
    · rename_i room
      rw [total_cons, ← Nat.add_assoc]
      exact ih room
    · exact within

theorem isPrefix_fit (front : ys <+: xs) (within : used + total weight ys ≤ limit) :
    ys <+: fit weight limit used xs := by
  induction xs generalizing used ys with
  | nil => exact front
  | cons a xs ih =>
    rcases prefix_cons_iff.mp front with rfl | ⟨zs, rfl, rest⟩
    · exact nil_prefix
    · rw [total_cons, ← Nat.add_assoc] at within
      rw [fit, if_pos (by omega)]
      exact cons_prefix_cons.mpr ⟨rfl, ih rest within⟩

theorem mem_fit_iff (once : a ∉ before) : a ∈ fit weight limit used (before ++ a :: after) ↔
      used + total weight before + weight a ≤ limit := by
  induction before generalizing used with
  | nil =>
    simp only [nil_append, fit, total_nil]
    split
    · exact iff_of_true mem_cons_self (by omega)
    · exact iff_of_false not_mem_nil (by omega)
  | cons b before ih =>
    have other : a ≠ b := fun same => once (same ▸ mem_cons_self)
    have once : a ∉ before := fun mem => once (mem_cons_of_mem _ mem)
    simp only [cons_append, fit, total_cons]
    split
    · rw [mem_cons, or_iff_right other, ih once]
      omega
    · exact iff_of_false not_mem_nil (by omega)

end Budget
