import Mathlib.Data.List.Induction
import Nitrocoro.Http.Parser
import Nitrocoro.Utils.UrlEncode

/-! The encoding of form fields, which `Form.cc` has a decoder of its own for, and the maps of a
form and of a query string that keep every value of a key. -/
namespace Nitrocoro.Http
open Text Utils OrderedMap

def formEncode (input : Bytes) : Bytes :=
  input.flatMap fun c =>
    if isUnreserved c then [c]
    else if c = 32 then [43]
    else if c = 43 then ascii "%2B"
    else percentEncode c

/-- `formDecode` from an index on, with `skip` the characters a percent sign has taken. -/
def formDecodeFrom : (skip : Nat) → Bytes → Bytes
  | _, [] => []
  | skip + 1, _ :: s => formDecodeFrom skip s
  | 0, c :: s =>
    if c = 43 then 32 :: formDecodeFrom 0 s
    else if c = 37 then
      match percentDecode s with
      | some decoded => decoded :: formDecodeFrom 2 s
      | none => 37 :: formDecodeFrom 0 s
    else c :: formDecodeFrom 0 s

def formDecode (input : Bytes) : Bytes := formDecodeFrom 0 input

theorem formDecodeFrom_eq (skip : Nat) (s : Bytes) :
    formDecodeFrom skip s = decodeFrom true false skip s := by
  induction s generalizing skip with
  | nil => rfl
  | cons c s ih =>
    cases skip with
    | succ skip => exact ih skip
    | zero =>
      simp only [formDecodeFrom, decodeFrom, ih, Bool.true_and, decide_eq_true_eq]
      rfl

theorem urlDecodeComponent_formEncode (s : Bytes) : urlDecodeComponent (formEncode s) = s := by
  refine decodeFrom_flatMap (fun c s => ?_) s
  split
  · rename_i unreserved
    obtain ⟨percent, plus⟩ := unreserved_ne c unreserved
    exact decodeFrom_plain percent (by simp [plus]) s
  split
  · rename_i space
    subst space
    rfl
  split
  · rename_i plus
    subst plus
    exact decodeFrom_percentEncode (c := 43) rfl s
  · exact decodeFrom_percentEncode rfl s

/-- The decoder of forms is the one of URL components. Either undoes the encoders of both, and the
decoder of paths undoes the encoder of paths. -/
theorem decoders_invert (s : Bytes) : formDecode s = urlDecodeComponent s ∧
    formDecode (formEncode s) = s ∧ formDecode (urlEncodeComponent s) = s ∧
    urlDecodeComponent (formEncode s) = s ∧ urlDecodeComponent (urlEncodeComponent s) = s ∧
    urlDecode (urlEncode s) = s := by
  have same : ∀ s, formDecode s = urlDecodeComponent s := formDecodeFrom_eq 0
  rw [same, same, same]
  exact ⟨rfl, urlDecodeComponent_formEncode s, urlDecodeComponent_urlEncodeComponent s,
    urlDecodeComponent_formEncode s, urlDecodeComponent_urlEncodeComponent s,
    urlDecode_urlEncode s⟩

/-- `result[key].push_back(value)`. -/
def pushBack (key value : Bytes) (result : List (Bytes × List Bytes)) : List (Bytes × List Bytes) :=
  insertOrAssign key ((result.lookup key).getD [] ++ [value]) result

def multiQueries (raw : Bytes) : List (Bytes × List Bytes) :=
  (pieces 38 raw).foldl (fun result pair =>
    match findChar 61 pair with
    | some eqPos =>
      pushBack (urlDecodeComponent (pair.take eqPos))
        (urlDecodeComponent (pair.drop (eqPos + 1))) result
    -- `result[key]` makes an empty entry unless there is one
    | none => if pair = [] then result else emplace (urlDecodeComponent pair) [] result) []

/-- A key is in `queries` if and only if it has a value in `multiQueries`, and with the first one. -/
theorem lookup_parseQueryString (query key : Bytes) :
    (RequestParser.parseQueryString query []).lookup key =
      ((multiQueries query).lookup key).bind List.head? := by
  unfold RequestParser.parseQueryString multiQueries
  refine List.foldl_rel (r := fun (single : List (Bytes × Bytes)) (multi : List (Bytes × List Bytes)) =>
    single.lookup key = (multi.lookup key).bind List.head?) rfl ?_
  intro pair _ single multi same
  cases findChar 61 pair with
  | none =>
    dsimp only
    split
    · exact same
    · rw [lookup_emplace, same]
      cases multi.lookup key with
      | some values => rfl
      | none => split <;> rfl
  | some eqPos =>
    simp only [pushBack, lookup_emplace, lookup_insertOrAssign, same]
    split
    · rename_i here
      rw [eq_of_beq here]
      rcases multi.lookup _ with _ | _ | _ <;> rfl
    · exact Option.or_none

def parseMultiFormData (formBody : Bytes) : List (Bytes × List Bytes) :=
  (pieces 38 formBody).foldl (fun result pair =>
    match findChar 61 pair with
    | some eqPos =>
      pushBack (formDecode (pair.take eqPos)) (formDecode (pair.drop (eqPos + 1))) result
    | none =>
      if pair = [] then result else insertOrAssign (formDecode pair) [] result) []

def valueFor (key pair : Bytes) : Option Bytes :=
  (findChar 61 pair).bind fun eqPos =>
    if formDecode (pair.take eqPos) = key then some (formDecode (pair.drop (eqPos + 1))) else none

/-- A pair that is the key without a value. -/
def Bare (key pair : Bytes) : Prop :=
  findChar 61 pair = none ∧ pair ≠ [] ∧ formDecode pair = key

/-- A key has all its values if and only if it does not occur without a value behind one of them:
this assigns an empty list. -/
theorem values_kept_iff (formBody key : Bytes) :
    ((parseMultiFormData formBody).lookup key).getD [] =
        (pieces 38 formBody).filterMap (valueFor key) ↔
      ∀ front pair, front ++ [pair] <+: pieces 38 formBody → Bare key pair →
        front.filterMap (valueFor key) = [] := by
  unfold parseMultiFormData
  induction pieces 38 formBody using List.reverseRecOn with
  | nil => simp
  | append_singleton pairs pair ih =>
    have ends : (∀ front last, front ++ [last] <+: pairs ++ [pair] → Bare key last →
        front.filterMap (valueFor key) = []) ↔
        (Bare key pair → pairs.filterMap (valueFor key) = []) ∧ ∀ front last,
          front ++ [last] <+: pairs → Bare key last → front.filterMap (valueFor key) = [] := by
      simp only [List.prefix_concat_iff, or_imp, forall_and]
      simp
    rw [ends, List.foldl_concat, List.filterMap_append, ← ih]
    generalize List.foldl _ [] pairs = result at ih
    cases at_eq : findChar 61 pair with
    | some eqPos =>
      have valued : ¬Bare key pair := fun bare => by simp [at_eq, Bare] at bare
      by_cases here : formDecode (pair.take eqPos) = key
      · simp [valued, valueFor, at_eq, here, pushBack, lookup_insertOrAssign]
      · simp [valued, valueFor, at_eq, here, Ne.symm here, pushBack, lookup_insertOrAssign]
    | none =>
      have absent : valueFor key pair = none := by simp [valueFor, at_eq]
      rw [List.filterMap_cons_none absent, List.filterMap_nil, List.append_nil]
      by_cases bare : Bare key pair
      · -- an empty list is right only if there were no values, and then none were lost before
        simp only [bare, bare.2.1, if_false, lookup_insertOrAssign, bare.2.2,
          beq_self_eq_true, if_true, Option.getD_some, true_imp_iff]
        refine ⟨fun empty => ⟨empty.symm, ih.mpr fun front last prior _ => ?_⟩,
          fun both => both.1.symm⟩
        have within := ((List.prefix_append front [last]).trans prior).filterMap (valueFor key)
        exact List.prefix_nil.mp (empty ▸ within)
      · simp only [bare, false_imp_iff, true_and]
        split
        · rfl
        · rename_i text
          have other : formDecode pair ≠ key := fun here => bare ⟨at_eq, text, here⟩
          simp [lookup_insertOrAssign, other.symm]

/-- The value of `a` is lost in `a=1&a`. -/
theorem values_lost : ∃ formBody key : Bytes,
    (pieces 38 formBody).filterMap (valueFor key) = [ascii "1"] ∧
    (parseMultiFormData formBody).lookup key = some [] :=
  ⟨ascii "a=1&a", ascii "a", by decide, by decide⟩

end Nitrocoro.Http
