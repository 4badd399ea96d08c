import Mathlib.Data.Nat.Init
import Mathlib.Data.Sum.Basic

/-! Loops given by a body that goes on with a new state or leaves with a result. A measure
that every continuing round decreases makes the loop a total function, by structural
recursion on the bound it gives. -/
namespace Loop
variable {S R : Type} {body : S → S ⊕ R} {size : S → Nat}

def Decreases (body : S → S ⊕ R) (size : S → Nat) : Prop :=
  ∀ s t, body s = .inl t → size t < size s

def within (decreases : Decreases body size) : (bound : Nat) → (s : S) → size s < bound → R
  | 0, _, below => absurd below (Nat.not_lt_zero _)
  | bound + 1, s, below =>
    match round : body s with
    | .inl t => within decreases bound t
        (Nat.lt_of_lt_of_le (decreases s t round) (Nat.le_of_lt_succ below))
    | .inr r => r

def run (decreases : Decreases body size) (s : S) : R :=
  within decreases (size s + 1) s (Nat.lt_succ_self _)

section
variable (decreases : Decreases body size)
include decreases

theorem within_inr (left : body s = .inr r)
    (below : size s < bound) : within decreases bound s below = r := by
  cases bound with
  | zero => exact absurd below (Nat.not_lt_zero _)
  | succ bound =>
    unfold within
    split
    · rename_i t round
      rw [left] at round
      cases round
    · rename_i r' round
      rw [left] at round
      exact (Sum.inr.inj round).symm

theorem within_inl (goes : body s = .inl t) (below : size s < bound + 1) (below' : size t < bound) :
    within decreases (bound + 1) s below = within decreases bound t below' := by
  rw [within]
  split
  · rename_i t' round
    rw [goes] at round
    cases round
    rfl
  · rename_i r round
    rw [goes] at round
    cases round

theorem within_bound (s : S) (below : size s < bound) (below' : size s < bound') :
    within decreases bound s below = within decreases bound' s below' := by
  induction bound generalizing s bound' with
  | zero => exact absurd below (Nat.not_lt_zero _)
  | succ bound ih =>
    cases bound' with
    | zero => exact absurd below' (Nat.not_lt_zero _)
    | succ bound' =>
      cases round : body s with
      | inr r => rw [within_inr decreases round, within_inr decreases round]
      | inl t =>
        have smaller := decreases s t round
        have left : size t < bound := by omega
        have right : size t < bound' := by omega
        rw [within_inl decreases round below left, within_inl decreases round below' right]
        exact ih t left right

theorem run_inr (left : body s = .inr r) : run decreases s = r :=
  within_inr decreases left _

theorem run_inl (goes : body s = .inl t) : run decreases s = run decreases t := by
  have smaller := decreases s t goes
  unfold run
  rw [within_inl decreases goes _ smaller]
  exact within_bound decreases t _ _

/-- Only the first round can tell two states apart. -/
theorem run_congr (same : body s = body t) : run decreases s = run decreases t := by
  cases round : body t with
  | inl u => rw [run_inl decreases (same.trans round), run_inl decreases round]
  | inr r => rw [run_inr decreases (same.trans round), run_inr decreases round]

/-- The invariant rule: what every round keeps, and what leaving makes of it. -/
theorem run_spec (Inv : S → Prop) (Post : R → Prop) (goes : ∀ s t, Inv s → body s = .inl t → Inv t)
    (leaves : ∀ s r, Inv s → body s = .inr r → Post r) (start : Inv s) :
    Post (run decreases s) := by
  induction bound : size s using Nat.strong_induction_on generalizing s with
  | _ bound ih =>
    cases round : body s with
    | inr r =>
      rw [run_inr decreases round]
      exact leaves s r start round
    | inl t =>
      rw [run_inl decreases round]
      exact ih (size t) (bound ▸ decreases s t round) (goes s t start round) rfl

/-- The rule for two loops: rounds that agree on going on give results that agree. -/
theorem run_related {S' R' : Type} {body' : S' → S' ⊕ R'} {size' : S' → Nat}
    (decreases' : Decreases body' size') (Rel : S → S' → Prop)
    (Post : R → R' → Prop) {s : S} {t : S'}
    (rounds : ∀ s t, Rel s t → Sum.LiftRel Rel Post (body s) (body' t))
    (start : Rel s t) : Post (run decreases s) (run decreases' t) := by
  induction bound : size s using Nat.strong_induction_on generalizing s t with
  | _ bound ih =>
    have both := rounds s t start
    cases round : body s with
    | inr r =>
      rw [round] at both
      cases round' : body' t with
      | inl t' => rw [round'] at both; cases both
      | inr r' =>
        rw [round'] at both
        rw [run_inr decreases round, run_inr decreases' round']
        exact Sum.liftRel_inr_inr.mp both
    | inl s' =>
      rw [round] at both
      cases round' : body' t with
      | inr r' => rw [round'] at both; cases both
      | inl t' =>
        rw [round'] at both
        rw [run_inl decreases round, run_inl decreases' round']
        exact ih (size s') (bound ▸ decreases s s' round) (Sum.liftRel_inl_inl.mp both) rfl

end

end Loop
