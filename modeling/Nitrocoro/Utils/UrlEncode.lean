import Nitrocoro.Lib.Text

/-! Percent-encoded text: the encoders and the decoders, and that a decoder undoes an encoder. A
decoded path has the slashes of the path before. -/
namespace Nitrocoro.Utils
open Text
open List

def hexVal (c : UInt8) : Option Nat :=
  if 48 ≤ c ∧ c ≤ 57 then some (c.toNat - 48)
  else if 65 ≤ c ∧ c ≤ 70 then some (c.toNat - 55)
  else if 97 ≤ c ∧ c ≤ 102 then some (c.toNat - 87)
  else none

/-- The two digits after a percent sign and what follows them. -/
def percentDecode (s : Bytes) : Option UInt8 :=
  match s with
  | h :: l :: _ => do
    let hi ← hexVal h
    let lo ← hexVal l
    some (hi * 16 + lo).toUInt8
  | _ => none

/-- `decodeImpl` from an index on, with `skip` the characters a percent sign has taken. -/
def decodeFrom (decodePlus skipSlash : Bool) : (skip : Nat) → Bytes → Bytes
  | _, [] => []
  | skip + 1, _ :: s => decodeFrom decodePlus skipSlash skip s
  | 0, c :: s =>
    if decodePlus && c = 43 then 32 :: decodeFrom decodePlus skipSlash 0 s
    else if c = 37 then
      match percentDecode s with
      | some decoded =>
        (if skipSlash && decoded = 47 then ascii "%2F" else [decoded]) ++
          decodeFrom decodePlus skipSlash 2 s
      -- an invalid sequence is kept as it is
      | none => 37 :: decodeFrom decodePlus skipSlash 0 s
    else c :: decodeFrom decodePlus skipSlash 0 s

def decodeImpl (input : Bytes) (decodePlus skipSlash : Bool) : Bytes :=
  decodeFrom decodePlus skipSlash 0 input

def urlDecode (input : Bytes) : Bytes := decodeImpl input false true

def urlDecodeComponent (input : Bytes) : Bytes := decodeImpl input true false

def kHex : Bytes := ascii "0123456789ABCDEF"

def isUnreserved (c : UInt8) : Bool :=
  65 ≤ c && c ≤ 90 || 97 ≤ c && c ≤ 122 || 48 ≤ c && c ≤ 57 || c = 45 || c = 95 || c = 46 || c = 126

def percentEncode (c : UInt8) : Bytes :=
  [37, kHex.getD (c >>> 4).toNat 0, kHex.getD (c &&& 15).toNat 0]

/-- The loop of the encoders, with the characters that stay as they are. -/
def encodeImpl (kept : UInt8 → Bool) (input : Bytes) : Bytes :=
  input.flatMap fun c =>
    if kept c then [c] else if c = 43 then ascii "%2B" else percentEncode c

def urlEncode (input : Bytes) : Bytes := encodeImpl (fun c => isUnreserved c || c = 47) input

def urlEncodeComponent (input : Bytes) : Bytes := encodeImpl isUnreserved input

section RoundTrip
variable {decodePlus skipSlash : Bool}

theorem decodeFrom_plain (plain : c ≠ 37) (other : (decodePlus && c = 43) = false) (s : Bytes) :
    decodeFrom decodePlus skipSlash 0 (c :: s) = c :: decodeFrom decodePlus skipSlash 0 s := by
  rw [decodeFrom, other, if_neg Bool.false_ne_true, if_neg plain]

theorem decodeFrom_percentEncode (kept : (skipSlash && c = 47) = false) (s : Bytes) :
    decodeFrom decodePlus skipSlash 0 (percentEncode c ++ s) =
      c :: decodeFrom decodePlus skipSlash 0 s := by
  have digits : ∀ c : UInt8, percentDecode [kHex.getD (c >>> 4).toNat 0,
      kHex.getD (c &&& 15).toNat 0] = some c := forall_byte (by decide +kernel)
  have decoded : percentDecode (kHex.getD (c >>> 4).toNat 0 ::
      kHex.getD (c &&& 15).toNat 0 :: s) = some c := digits c
  simp only [percentEncode, cons_append, nil_append, decodeFrom, decoded, kept,
    Bool.false_eq_true, if_false, if_true, show ¬ (37 : UInt8) = 43 by decide, decide_false,
    Bool.and_false]

theorem decodeFrom_flatMap {encode : UInt8 → Bytes}
    (each : ∀ c s, decodeFrom decodePlus skipSlash 0 (encode c ++ s) =
      c :: decodeFrom decodePlus skipSlash 0 s) (input : Bytes) :
    decodeFrom decodePlus skipSlash 0 (input.flatMap encode) = input := by
  induction input with
  | nil => rfl
  | cons c input ih => rw [flatMap_cons, each, ih]

theorem decodeImpl_encodeImpl {kept : UInt8 → Bool}
    (plain : ∀ c, kept c → c ≠ 37 ∧ c ≠ 43) (slash : skipSlash → kept 47) (input : Bytes) :
    decodeImpl (encodeImpl kept input) decodePlus skipSlash = input := by
  refine decodeFrom_flatMap (fun c s => ?_) input
  have encoded : ¬ kept c = true → (skipSlash && c = 47) = false := by
    intro other
    rw [Bool.and_eq_false_imp]
    intro skips
    exact decide_eq_false fun same => other (same ▸ slash skips)
  split
  · rename_i here
    obtain ⟨percent, plus⟩ := plain c here
    exact decodeFrom_plain percent (by simp [plus]) s
  rename_i other
  split
  · rename_i plus
    subst plus
    exact decodeFrom_percentEncode (encoded other) s
  · exact decodeFrom_percentEncode (encoded other) s

end RoundTrip

theorem unreserved_ne (c : UInt8) (unreserved : isUnreserved c) : c ≠ 37 ∧ c ≠ 43 := by
  revert c
  exact forall_byte (by decide +kernel)

theorem urlDecode_urlEncode (s : Bytes) : urlDecode (urlEncode s) = s := by
  refine decodeImpl_encodeImpl (fun c kept => ?_) (fun _ => rfl) s
  rcases Bool.or_eq_true_iff.mp kept with unreserved | slash
  · exact unreserved_ne c unreserved
  · rw [of_decide_eq_true slash]
    decide

theorem urlDecodeComponent_urlEncodeComponent (s : Bytes) :
    urlDecodeComponent (urlEncodeComponent s) = s := by
  refine decodeImpl_encodeImpl unreserved_ne ?_ s
  exact nofun

theorem percentDecode_slash (s t : Bytes) : percentDecode (s ++ 47 :: t) = percentDecode s := by
  match s with
  | [] => cases t <;> rfl
  | [h] =>
    simp only [cons_append, nil_append, percentDecode]
    cases hexVal h <;> rfl
  | h :: l :: s => rfl

theorem decodeFrom_slash {s : Bytes} (within : skip ≤ s.length) (t : Bytes) :
    decodeFrom false true skip (s ++ 47 :: t) =
      decodeFrom false true skip s ++ 47 :: decodeFrom false true 0 t := by
  induction s generalizing skip with
  | nil =>
    obtain rfl := Nat.le_zero.mp within
    exact decodeFrom_plain (by decide) rfl t
  | cons c s ih =>
    cases skip with
    | succ skip => exact ih (Nat.le_of_succ_le_succ within)
    | zero =>
      simp only [cons_append, decodeFrom, percentDecode_slash, Bool.false_and,
        Bool.false_eq_true, if_false]
      split
      · split
        · rename_i decoded
          have long : 2 ≤ s.length := by
            match s with
            | [] | [_] => cases decoded
            | _ :: _ :: _ => exact Nat.le_add_left ..
          rw [ih long, append_assoc]
        · rw [ih (Nat.zero_le _), cons_append]
      · rw [ih (Nat.zero_le _), cons_append]

theorem slash_notMem_decodeFrom {s : Bytes} (clean : 47 ∉ s) (skip : Nat) :
    47 ∉ decodeFrom false true skip s := by
  induction s generalizing skip with
  | nil => exact not_mem_nil
  | cons c s ih =>
    obtain ⟨other, clean⟩ := ne_and_not_mem_of_not_mem_cons clean
    cases skip with
    | succ skip => exact ih clean skip
    | zero =>
      simp only [decodeFrom, Bool.false_and, Bool.false_eq_true, if_false, Bool.true_and,
        decide_eq_true_eq]
      split
      · split
        · split
          · exact not_mem_append (by decide) (ih clean 2)
          · rename_i kept
            exact not_mem_append (by simpa using Ne.symm kept) (ih clean 2)
        · exact not_mem_cons_of_ne_of_not_mem (by decide) (ih clean 0)
      · exact not_mem_cons_of_ne_of_not_mem other (ih clean 0)

/-- The segments of a decoded path are the decoded segments of the path. -/
theorem splitOn_urlDecode (path : Bytes) :
    (urlDecode path).splitOn 47 = (path.splitOn 47).map urlDecode := by
  by_cases slash : 47 ∈ path
  · obtain ⟨s, t, cut, clean⟩ := eq_append_cons_of_mem slash
    have decoded : urlDecode (s ++ 47 :: t) = urlDecode s ++ 47 :: urlDecode t :=
      decodeFrom_slash (Nat.zero_le _) t
    have clean' : 47 ∉ urlDecode s := slash_notMem_decodeFrom clean 0
    rw [cut, decoded, splitOn_append clean', splitOn_append clean, map_cons, splitOn_urlDecode t]
  · rw [splitOn_single slash]
    exact splitOn_single (slash_notMem_decodeFrom slash 0)
termination_by path.length
decreasing_by
  rw [cut, List.length_append, List.length_cons]
  omega

end Nitrocoro.Utils
