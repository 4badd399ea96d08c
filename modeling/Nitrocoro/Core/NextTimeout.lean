import Mathlib.Algebra.Ring.Int.Defs
import Nitrocoro.Core.SchedulerProofs

/-! `get_next_timeout` over the time points of `steady_clock`, which are 64-bit counts of
nanoseconds, and the cast of its result to the `int` of `epoll_wait`. -/
namespace Nitrocoro.Scheduler
open Int64

/-- `get_next_timeout`, which moves the timers of `pendingTimers_` to `timers_` first. The
difference of two time points wraps only where the current time is negative. -/
def getNextTimeout (pendingTimers timers : List Int64) (now : Int64) : Int64 :=
  match (timers ++ pendingTimers).min? with
  | none => ofNat kDefaultTimeoutMs
  | some next => if next ≤ now then 0 else (next - now) / 1000000

/-- The argument of `epoll_wait`. -/
def timeoutMs (pendingTimers timers : List Int64) (now : Int64) : Int32 :=
  (getNextTimeout pendingTimers timers now).toInt32

def Earliest (next : Int64) (deadlines : List Int64) : Prop :=
  next ∈ deadlines ∧ ∀ deadline ∈ deadlines, next ≤ deadline

-- The instance for the list is given: there is also one that goes through every `Int64`.
instance (next : Int64) (deadlines : List Int64) : Decidable (Earliest next deadlines) :=
  @instDecidableAnd _ _ inferInstance (List.decidableBAll (next ≤ ·) deadlines)

def untilDeadline (next now : Int64) : Int := max 0 (next.toInt - now.toInt) / 1000000

/-- The milliseconds that `duration_cast` makes of the difference of two time points. -/
def countMs (next now : Int64) : Int := ((next.toInt - now.toInt).bmod (2 ^ 64)).tdiv 1000000

theorem toInt_quotient (next now : Int64) : ((next - now) / 1000000).toInt = countMs next now := by
  have divisor : (1000000 : Int64) ≠ -1 := by decide
  have value : (1000000 : Int64).toInt = 1000000 := by decide
  rw [toInt_div_of_ne_right _ _ divisor, toInt_sub, value, countMs]

theorem timeoutMs_earliest {pendingTimers timers : List Int64} {next : Int64}
    (earliest : Earliest next (timers ++ pendingTimers)) (now : Int64) :
    (timeoutMs pendingTimers timers now).toInt =
      if next ≤ now then 0 else (countMs next now).bmod (2 ^ 32) := by
  have top : (timers ++ pendingTimers).min? = some next := List.min?_eq_some_iff.mpr earliest
  simp only [timeoutMs, getNextTimeout, top]
  split
  · rfl
  · rw [toInt_toInt32, toInt_quotient]

/-- The cast to `int` keeps the lower 32 bits, and the highest of them is the sign. -/
theorem toInt_eq (n : Int) :
    n.bmod (2 ^ 32) = if n % 2 ^ 32 < 2 ^ 31 then n % 2 ^ 32 else n % 2 ^ 32 - 2 ^ 32 :=
  Int.bmod_def n (2 ^ 32)

theorem toInt_nonneg_iff (n : Int) : 0 ≤ n.bmod (2 ^ 32) ↔ n % 2 ^ 32 < 2 ^ 31 := by
  rw [toInt_eq]
  constructor
  · omega
  · omega

theorem countMs_of_lt {next now : Int64} (ahead : now < next)
    (near : next.toInt - now.toInt < 2 ^ 63) : countMs next now = untilDeadline next now := by
  have positive : 0 < next.toInt - now.toInt := Int.sub_pos.mpr (lt_iff_toInt_lt.mp ahead)
  have exact_ : (next.toInt - now.toInt).bmod (2 ^ 64) = next.toInt - now.toInt := by
    apply Int.bmod_eq_of_le <;> omega
  rw [countMs, untilDeadline, exact_, max_eq_right (Int.le_of_lt positive),
    Int.tdiv_eq_ediv_of_nonneg (Int.le_of_lt positive)]

theorem toInt_countMs_le {next now : Int64} (ahead : now < next) :
    (countMs next now).bmod (2 ^ 32) ≤ untilDeadline next now := by
  by_cases near : next.toInt - now.toInt < 2 ^ 63
  · have nonneg : 0 ≤ untilDeadline next now := by
      unfold untilDeadline
      omega
    rw [countMs_of_lt ahead near, toInt_eq]
    split <;> omega
  -- the deadline is centuries ahead
  have small : (countMs next now).bmod (2 ^ 32) < 2 ^ 31 := by
    rw [toInt_eq]
    split <;> omega
  unfold untilDeadline
  omega

/-- The loop of `Scheduler` waits as long: its times are the time points that are not negative, and
its timers are sorted. -/
theorem toInt_nextTimeout {H : Type} {timers : List (Timer H)}
    (sorted : timers.Pairwise (·.due ≤ ·.due)) (due : ∀ timer ∈ timers, timer.due < 2 ^ 63)
    (present : now < 2 ^ 63) : State.toInt (State.nextTimeout timers now) =
      (timeoutMs [] (timers.map fun timer => ofNat timer.due) (ofNat now)).toInt := by
  cases timers with
  | nil =>
    have default_ : State.toInt kDefaultTimeoutMs = (ofNat kDefaultTimeoutMs).toInt32.toInt :=
      by decide
    exact default_
  | cons next timers =>
    have at_ : (ofNat next.due).toInt = next.due :=
      toInt_ofNat_of_lt (due next List.mem_cons_self)
    have at_now : (ofNat now).toInt = now := toInt_ofNat_of_lt present
    have earliest : Earliest (ofNat next.due)
        ((next :: timers).map (fun timer => ofNat timer.due) ++ []) := by
      rw [List.append_nil]
      constructor
      · exact List.mem_cons_self
      intro deadline mem
      obtain ⟨timer, known, rfl⟩ := List.mem_map.mp mem
      rw [le_iff_toInt_le, at_, toInt_ofNat_of_lt (due timer known), Int.ofNat_le]
      rcases List.mem_cons.mp known with rfl | later
      · exact Nat.le_refl _
      · exact List.rel_of_pairwise_cons sorted later
    have passed : ofNat next.due ≤ ofNat now ↔ next.due ≤ now := by
      rw [le_iff_toInt_le, at_, at_now, Int.ofNat_le]
    refine Eq.trans ?_ (timeoutMs_earliest earliest (ofNat now)).symm
    show Int.bmod (if next.due ≤ now then 0 else (next.due - now) / 1000000 : Nat) (2 ^ 32) = _
    by_cases late : next.due ≤ now
    · rw [if_pos late, if_pos (passed.mpr late)]
      exact Int.zero_bmod
    have ahead : ofNat now < ofNat next.due :=
      Int64.not_le.mp fun le => late (passed.mp le)
    have near := due next List.mem_cons_self
    have value : ((next.due - now) / 1000000 : Nat) =
        untilDeadline (ofNat next.due) (ofNat now) := by
      rw [untilDeadline, at_now]
      omega
    rw [if_neg late, if_neg fun le => late (passed.mp le), countMs_of_lt ahead (by omega), value]

/-- `epoll_wait` gets a time that is over by the earliest deadline exactly if that has passed, or if
the lower 32 bits of the milliseconds until then are no negative `int`. -/
theorem timeoutMs_bounded_iff {pendingTimers timers : List Int64} {next : Int64}
    (earliest : Earliest next (timers ++ pendingTimers)) (now : Int64) :
    (0 ≤ (timeoutMs pendingTimers timers now).toInt ∧
      (timeoutMs pendingTimers timers now).toInt ≤ untilDeadline next now) ↔
        next ≤ now ∨ countMs next now % 2 ^ 32 < 2 ^ 31 := by
  rw [timeoutMs_earliest earliest]
  by_cases passed : next ≤ now
  · have nonneg : 0 ≤ untilDeadline next now := by
      unfold untilDeadline
      omega
    rw [if_pos passed]
    exact iff_of_true ⟨Int.le_refl 0, nonneg⟩ (.inl passed)
  · have ahead : now < next := Int64.not_le.mp passed
    rw [if_neg passed, toInt_nonneg_iff, and_iff_left (toInt_countMs_le ahead)]
    exact (or_iff_right passed).symm

/-- A timer that is due in a day, behind one that is due in two. -/
theorem timeoutMs_bounded_day : Earliest 86400000000000 ([172800000000000] ++ [86400000000000]) ∧
      (timeoutMs [86400000000000] [172800000000000] 5).toInt ≤
        untilDeadline 86400000000000 5 := by
  have earliest : Earliest 86400000000000 ([172800000000000] ++ [86400000000000]) := by decide
  exact ⟨earliest, ((timeoutMs_bounded_iff earliest 5).mpr (.inr (by decide))).2⟩

/-- A timer that is 2 ^ 31 milliseconds ahead makes `epoll_wait` block for ever. -/
theorem timeoutMs_negative : Earliest 2147483648000000 ([] ++ [2147483648000000]) ∧
      (timeoutMs [2147483648000000] [] 0).toInt = -2147483648 := by
  decide

end Nitrocoro.Scheduler
