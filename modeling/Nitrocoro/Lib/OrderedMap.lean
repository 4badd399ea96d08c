import Mathlib.Data.List.Basic

/-! `std::map` as a list of its entries in the order of their keys. -/
namespace OrderedMap
open List
variable {κ β : Type} [BEq κ] {key k : κ} {m : List (κ × β)}

theorem lookup_cons_ite : ((key, v) :: m).lookup k = if k == key then some v else m.lookup k := by
  rw [lookup_cons]
  cases k == key <;> rfl

def erase (key : κ) (m : List (κ × β)) : List (κ × β) := m.filter fun entry => !(key == entry.1)

section Lookup
variable [LawfulBEq κ]

theorem mem_of_lookup (found : m.lookup key = some v) : (key, v) ∈ m := by
  obtain ⟨_, _, rfl, _⟩ := lookup_eq_some_iff.mp found
  exact mem_append_right _ mem_cons_self

theorem lookup_erase : (erase key m).lookup k = if k == key then none else m.lookup k := by
  induction m with
  | nil => simp [erase]
  | cons entry m ih =>
    obtain ⟨k', v⟩ := entry
    simp only [erase] at ih ⊢
    by_cases hit : key == k'
    · rw [filter_cons_of_neg (by simp [hit]), ih, lookup_cons_ite, ← eq_of_beq hit]
      split <;> rfl
    · rw [filter_cons_of_pos (by simp [hit]), lookup_cons_ite, lookup_cons_ite, ih]
      by_cases same : k == key
      · rw [eq_of_beq same, if_neg hit, if_pos BEq.rfl, if_pos BEq.rfl]
      · rw [if_neg same, if_neg same]

def Sorted [LT κ] (m : List (κ × β)) : Prop := m.Pairwise fun a b => a.1 < b.1

theorem Sorted.lookup_of_mem [LT κ] [Std.Asymm (fun a b : κ => a < b)] (sorted : Sorted m)
    (mem : (key, v) ∈ m) : m.lookup key = some v := by
  induction m with
  | nil => cases mem
  | cons entry m ih =>
    obtain ⟨above, rest⟩ := pairwise_cons.mp sorted
    rw [lookup_cons_ite]
    rcases mem_cons.mp mem with same | mem
    · cases same
      exact if_pos BEq.rfl
    have below := above _ mem
    rw [if_neg, ih rest mem]
    intro same
    rw [eq_of_beq same] at below
    exact Std.Asymm.asymm _ _ below below

theorem Sorted.lookup_eq_some_iff [LT κ] [Std.Asymm (fun a b : κ => a < b)]
    (sorted : Sorted m) : m.lookup key = some v ↔ (key, v) ∈ m :=
  ⟨mem_of_lookup, sorted.lookup_of_mem⟩

end Lookup

variable [LT κ] [DecidableLT κ]

def insertOrAssign (key : κ) (v : β) : List (κ × β) → List (κ × β)
  | [] => [(key, v)]
  | (k, w) :: m =>
    if key == k then (key, v) :: m
    else if key < k then (key, v) :: (k, w) :: m
    else (k, w) :: insertOrAssign key v m

def emplace (key : κ) (v : β) (m : List (κ × β)) : List (κ × β) :=
  if (m.lookup key).isSome then m else insertOrAssign key v m

theorem emplace_of_lookup (present : m.lookup key = some w) : emplace key v m = m :=
  if_pos (by rw [present]; rfl)

theorem mem_insertOrAssign {entry : κ × β} (mem : entry ∈ insertOrAssign key v m) :
    entry = (key, v) ∨ entry ∈ m := by
  induction m with
  | nil => exact .inl (mem_singleton.mp mem)
  | cons first m ih =>
    simp only [insertOrAssign] at mem
    split at mem
    · exact (mem_cons.mp mem).imp_right (mem_cons_of_mem _)
    split at mem
    · exact mem_cons.mp mem
    · rcases mem_cons.mp mem with rfl | mem
      · exact .inr mem_cons_self
      · exact (ih mem).imp_right (mem_cons_of_mem _)

variable [LawfulBEq κ]

/-- The entries of one kind, when there was none before. -/
theorem filter_insertOrAssign {p : κ × β → Bool} (none : ∀ entry ∈ m, ¬ p entry)
    (other : ∀ entry ∈ m, entry.1 ≠ key) (here : p (key, v)) :
    (insertOrAssign key v m).filter p = [(key, v)] := by
  have nothing : m.filter p = [] := filter_eq_nil_iff.mpr none
  induction m with
  | nil => exact filter_cons_of_pos here
  | cons first m ih =>
    obtain ⟨none, nones⟩ := forall_mem_cons.mp none
    obtain ⟨other, others⟩ := forall_mem_cons.mp other
    rw [insertOrAssign, if_neg fun same => other (eq_of_beq same).symm]
    split
    · rw [filter_cons_of_pos here, nothing]
    · rw [filter_cons_of_neg none]
      exact ih nones others (filter_eq_nil_iff.mpr nones)

theorem lookup_insertOrAssign :
    (insertOrAssign key v m).lookup k = if k == key then some v else m.lookup k := by
  induction m with
  | nil => simp only [insertOrAssign, lookup_cons_ite]
  | cons entry m ih =>
    obtain ⟨-, w⟩ := entry
    simp only [insertOrAssign]
    split
    · rename_i hit
      rw [eq_of_beq hit]
      simp only [lookup_cons_ite]
      split <;> rfl
    rename_i other
    split
    · simp only [lookup_cons_ite]
    simp only [lookup_cons_ite, ih]
    by_cases same : k == key
    · rw [eq_of_beq same, if_neg other, if_pos BEq.rfl, if_pos BEq.rfl]
    · rw [if_neg same, if_neg same]

theorem lookup_emplace :
    (emplace key v m).lookup k = (m.lookup k).or (if k == key then some v else none) := by
  unfold emplace
  by_cases same : k == key
  · rw [eq_of_beq same]
    cases present : m.lookup key with
    | some w => simp [present]
    | none => simp [lookup_insertOrAssign]
  · split
    · simp
    · simp [lookup_insertOrAssign, same]

theorem lookup_foldl_emplace (entries : List (κ × β)) :
    (entries.foldl (fun m entry => emplace entry.1 entry.2 m) m).lookup k
      = (m.lookup k).or (entries.lookup k) := by
  induction entries generalizing m with
  | nil => simp
  | cons entry entries ih =>
    rw [foldl_cons, ih, lookup_emplace, Option.or_assoc, lookup_cons_ite]
    split <;> rfl

theorem Sorted.insertOrAssign [Trans (fun a b : κ => a < b) (fun a b => a < b) (fun a b => a < b)]
    [Std.Trichotomous (fun a b : κ => a < b)] (sorted : Sorted m) :
    Sorted (insertOrAssign key v m) := by
  induction m with
  | nil => exact pairwise_singleton _ _
  | cons entry m ih =>
    obtain ⟨k', w⟩ := entry
    obtain ⟨above, rest⟩ := pairwise_cons.mp sorted
    simp only [OrderedMap.insertOrAssign]
    split
    · rename_i hit
      rw [eq_of_beq hit]
      exact pairwise_cons.mpr ⟨above, rest⟩
    rename_i other
    split
    · rename_i below
      refine pairwise_cons.mpr ⟨?_, sorted⟩
      intro e mem
      rcases mem_cons.mp mem with rfl | mem
      · exact below
      · exact Trans.trans below (above e mem)
    rename_i notBelow
    refine pairwise_cons.mpr ⟨?_, ih rest⟩
    intro e mem
    rcases mem_insertOrAssign mem with rfl | mem
    · by_contra notAbove
      have same :=
        Std.Trichotomous.trichotomous (r := fun a b : κ => a < b) key k' notBelow notAbove
      exact other (by rw [same]; exact BEq.rfl)
    · exact above e mem

end OrderedMap
