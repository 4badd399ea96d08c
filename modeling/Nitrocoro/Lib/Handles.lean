import Mathlib.Logic.Function.Basic

/-! Objects that can be moved but not copied, each of which owns a resource or nothing. What was
owned goes to another object, is released by the object that gives it up, or is dropped by an
assignment to its owner. -/
namespace Handles
open Function
variable {O R : Type}

/-- What each living object has; one that was moved from has nothing. -/
abbrev Held (O R : Type) := O → Option (Option R)

inductive Op (O R : Type) where
  | construct (o : O) (resource : Option R)
  | moveConstruct (o source : O)
  | moveAssign (o source : O)
  /-- The object gives up what it has. -/
  | reset (o : O)
  | destroy (o : O)
  deriving DecidableEq

def Op.made : Op O R → Option R
  | .construct _ resource => resource
  | _ => none

def Owned (held : Held O R) (r : R) : Prop := ∃ o, held o = some (some r)

def Unique (held : Held O R) : Prop :=
  ∀ o p r, held o = some (some r) → held p = some (some r) → o = p

variable [DecidableEq O]

def transfer (held : Held O R) (o source : O) (resource : Option R) : Held O R :=
  update (update held o (some resource)) source (some none)

def step (held : Held O R) : Op O R → Option (Held O R)
  | .construct o resource =>
    match held o with
    | none => some (update held o (some resource))
    | some _ => none
  | .moveConstruct o source =>
    match held o, held source with
    | none, some resource => some (transfer held o source resource)
    | _, _ => none
  | .moveAssign o source =>
    match held o, held source with
    | some _, some resource =>
      if o = source then some held else some (transfer held o source resource)
    | _, _ => none
  | .reset o =>
    match held o with
    | some _ => some (update held o (some none))
    | none => none
  | .destroy o =>
    match held o with
    | some _ => some (update held o none)
    | none => none

def released (held : Held O R) : Op O R → Option R
  | .reset o => (held o).join
  | .destroy o => (held o).join
  | _ => none

def dropped (held : Held O R) : Op O R → Option R
  | .moveAssign o source => if o = source then none else (held o).join
  | _ => none

section
variable {held after : Held O R} {o p source : O} {r : R} {resource : Option R}

theorem update_eq_iff {value : Option (Option R)} : update held o value p = some (some r) ↔
      p = o ∧ value = some (some r) ∨ p ≠ o ∧ held p = some (some r) := by
  rcases eq_or_ne p o with rfl | other
  · simp
  · simp [other]

theorem transfer_eq_iff (apart : o ≠ source) : transfer held o source resource p = some (some r) ↔
      p = o ∧ resource = some r ∨ p ≠ o ∧ p ≠ source ∧ held p = some (some r) := by
  unfold transfer
  rw [update_eq_iff, update_eq_iff]
  constructor
  · rintro (⟨-, ⟨⟩⟩ | ⟨away, ⟨rfl, same⟩ | ⟨other, here⟩⟩)
    · exact .inl ⟨rfl, Option.some.inj same⟩
    · exact .inr ⟨other, away, here⟩
  · rintro (⟨rfl, rfl⟩ | ⟨other, away, here⟩)
    · exact .inr ⟨apart, .inl ⟨rfl, rfl⟩⟩
    · exact .inr ⟨away, .inr ⟨other, here⟩⟩

theorem owned_update (unique : Unique held) (o : O) (value : Option (Option R))
    (fresh : ∀ r, value = some (some r) → ∀ p, p ≠ o → held p ≠ some (some r)) :
    Unique (update held o value) ∧ ∀ r, Owned (update held o value) r ↔
      value = some (some r) ∨ Owned held r ∧ (held o).join ≠ some r := by
  constructor
  · intro p q r first second
    rw [update_eq_iff] at first second
    rcases first with ⟨rfl, new⟩ | ⟨other, first⟩ <;> rcases second with ⟨rfl, new'⟩ | ⟨other', second⟩
    · rfl
    · exact absurd second (fresh r new q other')
    · exact absurd first (fresh r new' p other)
    · exact unique p q r first second
  · intro r
    constructor
    · rintro ⟨p, here⟩
      rcases update_eq_iff.mp here with ⟨-, new⟩ | ⟨other, here⟩
      · exact .inl new
      · refine .inr ⟨⟨p, here⟩, fun gone => other ?_⟩
        exact unique p o r here (Option.join_eq_some_iff.mp gone)
    · rintro (new | ⟨⟨p, here⟩, kept⟩)
      · exact ⟨o, update_eq_iff.mpr (.inl ⟨rfl, new⟩)⟩
      · refine ⟨p, update_eq_iff.mpr (.inr ⟨?_, here⟩)⟩
        rintro rfl
        exact kept (Option.join_eq_some_iff.mpr here)

theorem owned_transfer (unique : Unique held) (apart : o ≠ source)
    (has : held source = some resource) : Unique (transfer held o source resource) ∧
      ∀ r, Owned (transfer held o source resource) r ↔
        Owned held r ∧ (held o).join ≠ some r := by
  constructor
  · intro p q r first second
    rw [transfer_eq_iff apart] at first second
    rcases first with ⟨rfl, rfl⟩ | ⟨_, away, first⟩ <;>
      rcases second with ⟨rfl, same⟩ | ⟨_, away', second⟩
    · rfl
    · exact absurd (unique q source r second has) away'
    · subst same
      exact absurd (unique p source r first has) away
    · exact unique p q r first second
  · intro r
    constructor
    · rintro ⟨p, here⟩
      have gone : ∀ {p}, p ≠ o → held p = some (some r) → (held o).join ≠ some r :=
        fun other here gone => other (unique _ o r here (Option.join_eq_some_iff.mp gone))
      rcases (transfer_eq_iff apart).mp here with ⟨-, rfl⟩ | ⟨other, -, here⟩
      · exact ⟨⟨source, has⟩, gone apart.symm has⟩
      · exact ⟨⟨p, here⟩, gone other here⟩
    rintro ⟨⟨p, here⟩, kept⟩
    have other : p ≠ o := by
      rintro rfl
      exact kept (Option.join_eq_some_iff.mpr here)
    by_cases from_ : p = source
    · subst from_
      cases has.symm.trans here
      exact ⟨o, (transfer_eq_iff apart).mpr (.inl ⟨rfl, rfl⟩)⟩
    · exact ⟨p, (transfer_eq_iff apart).mpr (.inr ⟨other, from_, here⟩)⟩

/-- Everything that an operation does to the owners. -/
theorem step_owned (unique : Unique held) (took : step held op = some after)
    (fresh : ∀ r, op.made = some r → ¬ Owned held r) :
    Unique after ∧ ∀ r, Owned after r ↔ op.made = some r ∨
      Owned held r ∧ released held op ≠ some r ∧ dropped held op ≠ some r := by
  cases op with
  | construct o resource =>
    simp only [step] at took
    split at took <;> cases took
    rename_i absent
    obtain ⟨unique', owned⟩ := owned_update unique o (some resource)
      fun r new p _ here => fresh r (Option.some.inj new) ⟨p, here⟩
    refine ⟨unique', fun r => (owned r).trans ?_⟩
    simp [Op.made, released, dropped, absent]
  | moveConstruct o source =>
    simp only [step] at took
    split at took <;> cases took
    rename_i resource absent has
    have apart : o ≠ source := by
      rintro rfl
      cases absent.symm.trans has
    obtain ⟨unique', owned⟩ := owned_transfer unique apart has
    refine ⟨unique', fun r => (owned r).trans ?_⟩
    simp [Op.made, released, dropped, absent]
  | moveAssign o source =>
    simp only [step] at took
    split at took
    case h_2 => cases took
    rename_i old resource here has
    split at took <;> cases took
    · rename_i same
      exact ⟨unique, fun r => by simp [Op.made, released, dropped, same]⟩
    · rename_i apart
      obtain ⟨unique', owned⟩ := owned_transfer unique apart has
      refine ⟨unique', fun r => (owned r).trans ?_⟩
      simp [Op.made, released, dropped, apart]
  | reset o =>
    simp only [step] at took
    split at took <;> cases took
    obtain ⟨unique', owned⟩ := owned_update unique o (some none) nofun
    refine ⟨unique', fun r => (owned r).trans ?_⟩
    simp [Op.made, released, dropped]
  | destroy o =>
    simp only [step] at took
    split at took <;> cases took
    obtain ⟨unique', owned⟩ := owned_update unique o none nofun
    refine ⟨unique', fun r => (owned r).trans ?_⟩
    simp [Op.made, released, dropped]

end

end Handles
