import Mathlib.Data.Nat.Digits.Lemmas
import Nitrocoro.Lib.Text

/-! The number conversions of the C++ standard library on byte strings: `std::stoul`,
`std::stoi`, and the printing of `std::to_string` and of the `%zx` conversion. -/
namespace Text.Numeral
open List

inductive Error where
  | invalidArgument
  | outOfRange
  deriving DecidableEq

def isSpace (c : UInt8) : Bool := c = 32 || (9 ≤ c && c ≤ 13)

def digitVal (c : UInt8) : Option Nat :=
  if 48 ≤ c ∧ c ≤ 57 then some (c.toNat - 48)
  else if 97 ≤ c ∧ c ≤ 122 then some (c.toNat - 87)
  else if 65 ≤ c ∧ c ≤ 90 then some (c.toNat - 55)
  else none

def digit (base : Nat) (c : UInt8) : Option Nat := (digitVal c).filter (· < base)

def leading (base : Nat) : Bytes → List Nat
  | [] => []
  | c :: s => match digit base c with
    | some d => d :: leading base s
    | none => []

def value (base : Nat) (digits : List Nat) : Nat := Nat.ofDigits base digits.reverse

theorem value_eq_foldl (base : Nat) (ds : List Nat) :
    value base ds = ds.foldl (fun n d => d + base * n) 0 := by
  rw [value, Nat.ofDigits_eq_foldr, foldr_reverse]
  rfl

def number (s : Bytes) : Nat := value 10 (s.filterMap (digit 10))

def sign (s : Bytes) : Bool × Bytes :=
  match s with
  | [] => (false, [])
  | c :: t => if c = 45 then (true, t) else if c = 43 then (false, t) else (false, s)

/-- In base 16 a `0x` that a digit follows is skipped. -/
def skip0x (s : Bytes) : Bytes :=
  match s with
  | z :: x :: d :: t =>
    if z = 48 ∧ (x = 120 ∨ x = 88) ∧ (digit 16 d).isSome then d :: t else s
  | _ => s

def scan (base : Nat) (s : Bytes) : Except Error (Bool × Nat) :=
  let (negative, s) := sign (s.dropWhile isSpace)
  match leading base (if base = 16 then skip0x s else s) with
  | [] => .error .invalidArgument
  | d :: ds => .ok (negative, value base (d :: ds))

/-- `std::stoul(s, nullptr, base)` with 64 bits; a minus sign negates modulo `2 ^ 64`. -/
def stoul (base : Nat) (s : Bytes) : Except Error Nat := do
  let (negative, n) ← scan base s
  if 2 ^ 64 ≤ n then .error .outOfRange
  else .ok (if negative then (2 ^ 64 - n) % 2 ^ 64 else n)

/-- `std::stoi(s)` with 32 bits. -/
def stoi (s : Bytes) : Except Error Int := do
  let (negative, n) ← scan 10 s
  let i : Int := if negative then -n else n
  if -2 ^ 31 ≤ i ∧ i < 2 ^ 31 then .ok i else .error .outOfRange

def digitChar (d : Nat) : UInt8 := if d < 10 then (48 + d).toUInt8 else (87 + d).toUInt8

def print (base n : Nat) : Bytes :=
  if n = 0 then [48] else (Nat.digits base n).reverse.map digitChar

structure Digits (base : Nat) (s : Bytes) : Prop where
  nonempty : s ≠ []
  digits : ∀ c ∈ s, (digit base c).isSome

def Stops (base : Nat) (s : Bytes) : Prop :=
  ∀ c ∈ s.head?, digit base c = none ∧ c ≠ 120 ∧ c ≠ 88

theorem leading_append (digits : ∀ c ∈ s, (digit base c).isSome) (stops : Stops base t) :
    leading base (s ++ t) = s.filterMap (digit base) := by
  induction s with
  | nil =>
    cases t with
    | nil => rfl
    | cons c t => simp [leading, (stops c rfl).1]
  | cons c s ih =>
    obtain ⟨d, isDigit⟩ := Option.isSome_iff_exists.mp (digits c mem_cons_self)
    simp only [cons_append, leading, isDigit, filterMap_cons]
    rw [ih fun c' h => digits c' (mem_cons_of_mem _ h)]

theorem digitVal_range (some : digitVal c = some d) : 48 ≤ c.toNat ∧ c.toNat ≤ 122 := by
  simp only [digitVal, UInt8.le_iff_toNat_le] at some
  split at some
  · simp_all; omega
  split at some
  · simp_all; omega
  · split at some
    · simp_all; omega
    · cases some

theorem digit_range (isDigit : (digit base c).isSome) : 48 ≤ c.toNat ∧ c.toNat ≤ 122 := by
  obtain ⟨d, some⟩ := Option.isSome_iff_exists.mp isDigit
  exact digitVal_range (Option.filter_eq_some_iff.mp some).1

theorem digit16_ne_x (isDigit : (digit 16 c).isSome) : c ≠ 120 ∧ c ≠ 88 := by
  constructor
  · rintro rfl
    exact absurd isDigit (by decide)
  · rintro rfl
    exact absurd isDigit (by decide)

theorem skip0x_of_ne (noX : ∀ x ∈ s.head?, x ≠ 120 ∧ x ≠ 88) : skip0x (c :: s) = c :: s := by
  match s with
  | [] => rfl
  | [_] => rfl
  | x :: d :: t =>
    have ne := noX x rfl
    simp [skip0x, ne.1, ne.2]

theorem isSpace_digit (isDigit : (digit base c).isSome) : isSpace c = false := by
  have range := digit_range isDigit
  simp only [isSpace, Bool.or_eq_false_iff, Bool.and_eq_false_iff, decide_eq_false_iff_not,
    ← UInt8.toNat_inj]
  constructor
  · show ¬ c.toNat = 32
    omega
  · right
    show ¬ c.toNat ≤ 13
    omega

theorem scan_digits (digits : Digits base s) (stops : Stops base t) :
    scan base (s ++ t) = .ok (false, value base (s.filterMap (digit base))) := by
  obtain ⟨c, s, rfl⟩ := exists_cons_of_ne_nil digits.nonempty
  have range := digit_range (digits.digits c mem_cons_self)
  have printable := isSpace_digit (digits.digits c mem_cons_self)
  have unsigned : sign (c :: (s ++ t)) = (false, c :: (s ++ t)) := by
    have minus : c ≠ 45 := by rintro rfl; exact absurd range.1 (by decide)
    have plus : c ≠ 43 := by rintro rfl; exact absurd range.1 (by decide)
    simp only [sign, if_neg minus, if_neg plus]
  have plain : (if base = 16 then skip0x (c :: (s ++ t)) else c :: (s ++ t)) = c :: (s ++ t) := by
    split
    · rename_i hex
      subst hex
      apply skip0x_of_ne
      intro x first
      cases s with
      | nil => exact (stops x first).2
      | cons x' s =>
        cases first
        exact digit16_ne_x (digits.digits _ (by simp))
    · rfl
  have read : leading base (c :: (s ++ t)) = (c :: s).filterMap (digit base) :=
    leading_append digits.digits stops
  obtain ⟨d, isDigit⟩ := Option.isSome_iff_exists.mp (digits.digits c mem_cons_self)
  simp only [scan, cons_append, dropWhile_cons, printable, unsigned, plain, read,
    filterMap_cons, isDigit, Bool.false_eq_true, if_false]

theorem stoul_digits (digits : Digits base s) (stops : Stops base t)
    (fits : value base (s.filterMap (digit base)) < 2 ^ 64) :
    stoul base (s ++ t) = .ok (value base (s.filterMap (digit base))) := by
  simp only [stoul, scan_digits digits stops, bind, Except.bind, if_neg (Nat.not_le.mpr fits)]
  rfl

theorem leading_eq (s : Bytes) :
    leading base s = (s.takeWhile fun c => (digit base c).isSome).filterMap (digit base) := by
  induction s with
  | nil => rfl
  | cons c s ih =>
    cases isDigit : digit base c with
    | none => simp [leading, isDigit]
    | some d => simp [leading, isDigit, ih]

structure Parts where
  blanks : Bytes := []
  mark : Bytes := []
  digits : Bytes
  junk : Bytes := []

def Parts.text (parts : Parts) : Bytes :=
  parts.blanks ++ (parts.mark ++ (parts.digits ++ parts.junk))

structure Parts.Proper (base : Nat) (parts : Parts) : Prop where
  blank : ∀ c ∈ parts.blanks, isSpace c
  marked : parts.mark = [] ∨ parts.mark = [43] ∨ parts.mark = [45]
  digits : Digits base parts.digits
  ends : ∀ c ∈ parts.junk.head?, digit base c = none

theorem sign_eq (s : Bytes) : ∃ mark, (mark = [] ∨ mark = [43] ∨ mark = [45]) ∧
    s = mark ++ (sign s).2 ∧ ((sign s).1 = true ↔ mark = [45]) := by
  cases s with
  | nil => exact ⟨[], .inl rfl, rfl, by simp [sign]⟩
  | cons c t =>
    simp only [sign]
    split
    · rename_i minus
      exact ⟨[45], .inr (.inr rfl), by rw [minus]; rfl, by simp⟩
    · split
      · rename_i plus
        exact ⟨[43], .inr (.inl rfl), by rw [plus]; rfl, by simp⟩
      · exact ⟨[], .inl rfl, rfl, by simp⟩

theorem scan_parts (plain : base ≠ 16) (scanned : scan base s = .ok (minus, m)) :
    ∃ parts : Parts, parts.text = s ∧ parts.Proper base ∧
      m = value base (parts.digits.filterMap (digit base)) ∧ (minus = true ↔ parts.mark = [45]) := by
  obtain ⟨mark, marked, split, negative⟩ := sign_eq (s.dropWhile isSpace)
  simp only [scan, if_neg plain, leading_eq] at scanned
  generalize sign (s.dropWhile isSpace) = signed at split negative scanned
  obtain ⟨negated, rest⟩ := signed
  cases numeral : (rest.takeWhile fun c => (digit base c).isSome).filterMap (digit base) with
  | nil => simp [numeral] at scanned
  | cons d ds =>
    simp only [numeral] at scanned
    cases scanned
    refine ⟨⟨s.takeWhile isSpace, mark, rest.takeWhile fun c => (digit base c).isSome,
      rest.dropWhile fun c => (digit base c).isSome⟩, ?_, ⟨?_, marked, ⟨?_, ?_⟩, ?_⟩, ?_, negative⟩
    · rw [Parts.text, takeWhile_append_dropWhile, ← split, takeWhile_append_dropWhile]
    · exact fun c mem => all_eq_true.mp all_takeWhile c mem
    · intro none
      dsimp only at none
      rw [none] at numeral
      cases numeral
    · exact fun c mem => all_eq_true.mp all_takeWhile c mem
    · intro c first
      have last := List.head?_dropWhile_not (fun c => (digit base c).isSome) rest
      rw [first] at last
      simpa using last
    · rw [numeral]

/-- A text that `stoul` accepts begins with a number, but may hold more. -/
theorem stoul_parts (plain : base ≠ 16) (read : stoul base s = .ok n) :
    ∃ parts : Parts, parts.text = s ∧ parts.Proper base ∧
      value base (parts.digits.filterMap (digit base)) < 2 ^ 64 ∧
      (parts.mark ≠ [45] → n = value base (parts.digits.filterMap (digit base))) := by
  cases scanned : scan base s with
  | error e => simp [stoul, scanned, bind, Except.bind] at read
  | ok r =>
    obtain ⟨minus, m⟩ := r
    obtain ⟨parts, text, proper, rfl, negative⟩ := scan_parts plain scanned
    simp only [stoul, scanned, bind, Except.bind] at read
    split at read
    · cases read
    rename_i fits
    refine ⟨parts, text, proper, Nat.lt_of_not_le fits, ?_⟩
    intro unsigned
    have positive : minus = false := by
      rw [← Bool.not_eq_true, negative]
      exact unsigned
    subst positive
    exact (Except.ok.inj read).symm

theorem digit_digitChar (small : d < base) (known : base ≤ 36) :
    digit base (digitChar d) = some d := by
  have all : ∀ d < 36, digitVal (digitChar d) = some d := by decide
  rw [digit, all d (by omega), Option.filter_some, if_pos (by simpa using small)]

theorem filterMap_digitChar (known : base ≤ 36) {ds : List Nat} (small : ∀ d ∈ ds, d < base) :
    (ds.map digitChar).filterMap (digit base) = ds := by
  rw [filterMap_map]
  calc
    _ = ds.filterMap some :=
      filterMap_congr fun d mem => digit_digitChar (small d mem) known
    _ = ds := filterMap_some

theorem print_spells (large : 1 < base) (n : Nat) :
    ∃ ds, ds ≠ [] ∧ (∀ d ∈ ds, d < base) ∧ value base ds = n ∧ print base n = ds.map digitChar := by
  by_cases zero : n = 0
  · exact ⟨[0], by simp, by simp; omega, by simp [value, zero], by simp [zero]; rfl⟩
  refine ⟨(Nat.digits base n).reverse, ?_, ?_, ?_, by simp [print, zero]⟩
  · simpa [Nat.digits_ne_nil_iff_ne_zero] using zero
  · intro d mem
    exact Nat.digits_lt_base large (mem_reverse.mp mem)
  · rw [value, reverse_reverse, Nat.ofDigits_digits]

theorem print_digits (large : 1 < base) (known : base ≤ 36) (n : Nat) :
    Digits base (print base n) := by
  obtain ⟨ds, nonempty, small, -, spelled⟩ := print_spells large n
  rw [spelled]
  refine ⟨by simpa using nonempty, ?_⟩
  intro c mem
  obtain ⟨d, member, rfl⟩ := mem_map.mp mem
  rw [digit_digitChar (small d member) known]
  rfl

theorem print_length_le_iff (large : 1 < base) (k n : Nat) :
    (print base n).length ≤ k + 1 ↔ n < base ^ (k + 1) := by
  by_cases zero : n = 0
  · have positive : 0 < base ^ (k + 1) := Nat.pow_pos (by omega)
    simp [print, zero, positive]
  · have bound := Nat.digits_length_le_iff (k := k + 1) large n
    simpa [print, zero] using bound

theorem value_print (large : 1 < base) (known : base ≤ 36) (n : Nat) :
    value base ((print base n).filterMap (digit base)) = n := by
  obtain ⟨ds, -, small, spells, spelled⟩ := print_spells large n
  rw [spelled, filterMap_digitChar known small, spells]

theorem scan_print (large : 1 < base) (known : base ≤ 36) (stops : Stops base t) (n : Nat) :
    scan base (print base n ++ t) = .ok (false, n) := by
  rw [scan_digits (print_digits large known n) stops, value_print large known]

theorem stoi_digits (digits : Digits 10 s) (small : number s < 2 ^ 31) : stoi s = .ok (number s) := by
  have scanned := scan_digits (t := []) digits nofun
  rw [append_nil] at scanned
  unfold number at small ⊢
  simp only [stoi, scanned, bind, Except.bind, Bool.false_eq_true, if_false]
  rw [if_pos (by omega)]

theorem stoi_print (small : n < 2 ^ 31) (stops : Stops 10 t) : stoi (print 10 n ++ t) = .ok n := by
  simp only [stoi, scan_print (by decide : 1 < 10) (by decide) stops n, bind, Except.bind,
    Bool.false_eq_true, if_false]
  rw [if_pos (by omega)]

end Text.Numeral
