import Mathlib.Data.List.Basic
import Mathlib.Data.List.Infix

/-! Searching and cutting strings, with lists for `std::string_view`. A search gives `none`
for `npos`. -/
namespace Text
open List List

abbrev Bytes := List UInt8

instance lawful_bytes : LawfulBEq Bytes := inferInstance

def ascii (s : String) : Bytes := s.toList.map fun c => c.toNat.toUInt8

theorem forall_byte {P : UInt8 → Prop} (all : ∀ n : Fin 256, P (.ofNat n)) (c : UInt8) : P c := by
  have spelled : UInt8.ofNat c.toNat = c := UInt8.ofNat_toNat
  exact spelled ▸ all ⟨c.toNat, c.toNat_lt⟩

/-- A literal is the list of its characters, which is cheaper to evaluate than its encoding. -/
theorem not_mem_ascii {word : List Char} {b : UInt8}
    (clean : b ∉ word.map fun c => c.toNat.toUInt8) : b ∉ ascii (String.ofList word) := by
  rwa [ascii, String.toList_ofList]

variable {α : Type} [DecidableEq α] {pattern s t v : List α} {a c : α} {pos k m : Nat}

/-- `s.find(pattern)`. -/
def find (pattern : List α) : List α → Option Nat
  | [] => if pattern = [] then some 0 else none
  | a :: s => if pattern <+: a :: s then some 0 else (find pattern s).map (· + 1)

theorem find_some_le (found : find pattern s = some pos) : pos + pattern.length ≤ s.length := by
  induction s generalizing pos with
  | nil =>
    simp only [find] at found
    split at found
    · rename_i empty
      cases found
      simp [empty]
    · cases found
  | cons a s ih =>
    simp only [find] at found
    split at found
    · rename_i here
      cases found
      simpa using here.length_le
    · obtain ⟨i, found', rfl⟩ := Option.map_eq_some_iff.mp found
      have := ih found'
      simp only [length_cons]
      omega

theorem find_append (found : find pattern s = some pos) (more : List α) :
    find pattern (s ++ more) = some pos := by
  induction s generalizing pos with
  | nil =>
    simp only [find] at found
    split at found
    · rename_i empty
      cases found
      subst empty
      cases more <;> simp [find]
    · cases found
  | cons a s ih =>
    simp only [find] at found
    simp only [cons_append, find]
    split at found
    · rename_i here
      cases found
      rw [if_pos (here.trans ⟨more, by simp⟩)]
    obtain ⟨i, found', rfl⟩ := Option.map_eq_some_iff.mp found
    have within := find_some_le found'
    rw [if_neg, ih found']
    · rfl
    rename_i nowhere
    intro here
    apply nowhere
    exact prefix_of_prefix_length_le here ⟨more, rfl⟩
      (by simp only [length_cons]; omega)

theorem find_some_cut (found : find pattern s = some pos) (proper : pattern ≠ []) :
    s = s.take pos ++ (pattern ++ s.drop (pos + pattern.length)) ∧
      find pattern (s.take pos) = none := by
  induction s generalizing pos with
  | nil => simp [find, proper] at found
  | cons a s ih =>
    simp only [find] at found
    split at found
    · rename_i here
      cases found
      obtain ⟨rest, split⟩ := here
      simp [find, proper, ← split]
    rename_i nowhere
    obtain ⟨i, later, rfl⟩ := Option.map_eq_some_iff.mp found
    obtain ⟨cut, first⟩ := ih later
    constructor
    · rw [take_succ_cons, cons_append, Nat.add_right_comm, drop_succ_cons, ← cut]
    rw [take_succ_cons, find, if_neg, first]
    · rfl
    · intro here
      exact nowhere (here.trans ⟨s.drop i, by simp⟩)

theorem find_none_iff : find pattern s = none ↔ ¬ pattern <:+: s := by
  induction s with
  | nil => simp [find]
  | cons a s ih =>
    simp only [find, infix_cons_iff]
    split
    · simp_all
    · simp_all

/-- `s.find(c)`. -/
def findChar (c : α) (s : List α) : Option Nat := s.findIdx? (· = c)

theorem findChar_append (absent : c ∉ s) : findChar c (s ++ c :: t) = some s.length := by
  rw [findChar, findIdx?_eq_some_iff_getElem]
  refine ⟨by simp, by simp, ?_⟩
  intro i lt
  rw [getElem_append_left lt, decide_eq_true_eq]
  rintro rfl
  exact absent (getElem_mem lt)

theorem findChar_eq_none (absent : c ∉ s) : findChar c s = none := by
  rw [findChar, findIdx?_eq_none_iff]
  intro a ha
  rw [decide_eq_false_iff_not]
  rintro rfl
  exact absent ha

theorem beq_false_of_notMem (clean : c ∉ s) (a : α) (mem : a ∈ s) : (a == c) = false := by
  apply beq_false_of_ne
  rintro rfl
  exact clean mem

theorem splitOn_append (clean : c ∉ s) (t : List α) : (s ++ c :: t).splitOn c = s :: t.splitOn c :=
  splitOnP_append_cons_of_forall_mem (beq_false_of_notMem clean) c (beq_self_eq_true c) t

theorem splitOn_single (clean : c ∉ s) : s.splitOn c = [s] :=
  splitOnP_eq_singleton (beq_false_of_notMem clean)

/-- `s.find_first_not_of(c, pos)`. -/
def firstNotOf (c : α) (s : List α) (pos : Nat) : Option Nat :=
  ((s.drop pos).findIdx? (· ≠ c)).map (pos + ·)

/-- `s.find_last_not_of(c)`. -/
def lastNotOf (c : α) (s : List α) : Option Nat :=
  (s.reverse.findIdx? (· ≠ c)).map (s.length - 1 - ·)

def Trimmed (c : α) (s : List α) : Prop := s.head? ≠ some c ∧ s.getLast? ≠ some c

instance : Decidable (Trimmed c s) := inferInstanceAs (Decidable (_ ∧ _))

theorem findIdx?_replicate_append (ne : a ≠ c) :
    (replicate k c ++ a :: t).findIdx? (· ≠ c) = some k := by
  simp [findIdx?_cons, ne]

theorem firstNotOf_append (ne : a ≠ c) :
    firstNotOf c (s ++ (replicate k c ++ a :: t)) s.length = some (s.length + k) := by
  rw [firstNotOf, drop_left, findIdx?_replicate_append ne]
  rfl

theorem firstNotOf_replicate : firstNotOf c (s ++ replicate k c) s.length = none := by
  rw [firstNotOf, drop_left, findIdx?_eq_none_iff.mpr]
  · rfl
  · intro a ha
    simp [eq_of_mem_replicate ha]

theorem lastNotOf_append (ne : a ≠ c) : lastNotOf c (s ++ a :: replicate k c) = some s.length := by
  have reversed : (s ++ a :: replicate k c).reverse
      = replicate k c ++ a :: s.reverse := by simp
  rw [lastNotOf, reversed, findIdx?_replicate_append ne]
  simp

omit [DecidableEq α] in
/-- A nonempty trimmed string between two runs of `c`, as its first and last character see it. -/
theorem Trimmed.ends (trimmed : Trimmed c s) (nonempty : s ≠ []) :
    (∃ a t, s = a :: t ∧ a ≠ c) ∧ ∃ t b, s = t ++ [b] ∧ b ≠ c := by
  constructor
  · obtain ⟨a, t, rfl⟩ := exists_cons_of_ne_nil nonempty
    exact ⟨a, t, rfl, fun same => trimmed.1 (by simp [same])⟩
  · obtain ⟨t, b, rfl⟩ := (eq_nil_or_concat s).resolve_left nonempty
    exact ⟨t, b, by simp, fun same => trimmed.2 (by simp [same])⟩

def trim (c : α) (s : List α) : List α :=
  match firstNotOf c s 0, lastNotOf c s with
  | some l, some r => (s.drop l).take (r - l + 1)
  | _, _ => []

theorem firstNotOf_padded (trimmed : Trimmed c v) (nonempty : v ≠ []) :
    firstNotOf c (s ++ (replicate k c ++ (v ++ t))) s.length = some (s.length + k) := by
  obtain ⟨⟨a, w, rfl, ne⟩, -⟩ := trimmed.ends nonempty
  exact firstNotOf_append ne

theorem lastNotOf_padded (trimmed : Trimmed c v) (nonempty : v ≠ []) :
    lastNotOf c (s ++ (v ++ replicate k c)) = some (s.length + v.length - 1) := by
  obtain ⟨-, w, b, rfl, ne⟩ := trimmed.ends nonempty
  have regroup : s ++ (w ++ [b] ++ replicate k c) = (s ++ w) ++ b :: replicate k c := by
    simp
  rw [regroup, lastNotOf_append ne]
  simp only [length_append, length_singleton, Option.some.injEq]
  omega

theorem trim_padded (trimmed : Trimmed c v) :
    trim c (replicate k c ++ (v ++ replicate m c)) = v := by
  by_cases empty : v = []
  · have none := firstNotOf_replicate (s := []) (c := c) (k := k + m)
    simp only [nil_append, length_nil] at none
    simp only [empty, nil_append, trim, replicate_append_replicate, none]
  have first := firstNotOf_padded (s := []) (k := k) (t := replicate m c) trimmed empty
  have last := lastNotOf_padded (s := replicate k c) (k := m) trimmed empty
  have long := length_pos_iff.mpr empty
  simp only [nil_append, length_nil, Nat.zero_add] at first
  simp only [trim, first, last, length_replicate]
  rw [drop_left' (by simp), show k + v.length - 1 - k + 1 = v.length by omega, take_left]

theorem trim_eq_self (trimmed : Trimmed c v) : trim c v = v := by
  simpa using trim_padded (k := 0) (m := 0) trimmed

theorem exists_lead (c : α) (s : List α) : ∃ k t, s = replicate k c ++ t ∧ t.head? ≠ some c := by
  induction s with
  | nil => exact ⟨0, [], rfl, nofun⟩
  | cons a s ih =>
    by_cases same : a = c
    · obtain ⟨k, t, rfl, ends⟩ := ih
      exact ⟨k + 1, t, by rw [same]; rfl, ends⟩
    · exact ⟨0, a :: s, rfl, by simpa using same⟩

theorem exists_padded (c : α) (s : List α) : ∃ k v m, s = replicate k c ++ (v ++ replicate m c) ∧
    Trimmed c v ∧ trim c s = v := by
  obtain ⟨k, t, rfl, first⟩ := exists_lead c s
  obtain ⟨m, u, rest, last⟩ := exists_lead c t.reverse
  have whole : t = u.reverse ++ replicate m c := by
    rw [← t.reverse_reverse, rest, reverse_append, reverse_replicate]
  have trimmed : Trimmed c u.reverse := by
    refine ⟨fun here => first ?_, by simpa using last⟩
    rw [whole, head?_append, here]
    rfl
  exact ⟨k, u.reverse, m, by rw [whole], trimmed, by rw [whole, trim_padded trimmed]⟩

/-- `s.substr(pos, count)`, where `count` may be `npos`; `none` where C++ throws. -/
def substr (s : List α) (pos : Nat) (count : Option Nat) : Option (List α) :=
  if s.length < pos then none
  else some (match count with
    | some n => (s.drop pos).take n
    | none => s.drop pos)

/-- `last - first + 1` on `size_t`: when it wraps it is `npos`, at least as a length. -/
def span (first : Nat) (last : Option Nat) : Option Nat :=
  match last with
  | some last => if last + 1 < first then none else some (last + 1 - first)
  | none => none

omit [DecidableEq α] in
theorem substr_append : substr (s ++ (v ++ t)) s.length (some v.length) = some v := by
  simp [substr]

omit [DecidableEq α] in
theorem substr_padded (nonempty : v ≠ []) : substr (s ++ (replicate k c ++ (v ++ t))) (s.length + k)
      (span (s.length + k) (some (s.length + k + v.length - 1))) = some v := by
  have long := length_pos_iff.mpr nonempty
  have whole : span (s.length + k) (some (s.length + k + v.length - 1)) = some v.length := by
    rw [span, if_neg (by omega)]
    congr 1
    omega
  have cut := substr_append (s := s ++ replicate k c) (v := v) (t := t)
  rwa [append_assoc, length_append, length_replicate, ← whole] at cut

/-- The pieces a loop over `s.find(sep, start)` visits: none after a final separator. -/
def pieces (sep : α) : List α → List (List α)
  | [] => []
  | a :: s =>
    if a = sep then [] :: pieces sep s
    else match pieces sep s with
      | [] => [[a]]
      | piece :: more => (a :: piece) :: more

theorem pieces_append (absent : c ∉ s) : pieces c (s ++ c :: t) = s :: pieces c t := by
  induction s with
  | nil => simp [pieces]
  | cons a s ih =>
    have other : a ≠ c := fun same => absent (same ▸ mem_cons_self)
    rw [cons_append, pieces, if_neg other, ih fun mem => absent (mem_cons_of_mem _ mem)]

theorem pieces_single (absent : c ∉ s) (nonempty : s ≠ []) : pieces c s = [s] := by
  induction s with
  | nil => exact absurd rfl nonempty
  | cons a s ih =>
    have other : a ≠ c := fun same => absent (same ▸ mem_cons_self)
    rw [pieces, if_neg other]
    by_cases last : s = []
    · rw [last]
      rfl
    · rw [ih (fun mem => absent (mem_cons_of_mem _ mem)) last]

theorem pieces_join (absent : c ∉ s) (nonempty : s ≠ []) {more : List (List α)}
    (good : ∀ t ∈ more, c ∉ t ∧ t ≠ []) : pieces c (s ++ more.flatMap (c :: ·)) = s :: more := by
  induction more generalizing s with
  | nil => simpa using pieces_single absent nonempty
  | cons t more ih =>
    have first := good t mem_cons_self
    rw [flatMap_cons, cons_append, pieces_append absent,
      ih first.1 first.2 fun t mem => good t (mem_cons_of_mem _ mem)]

end Text
