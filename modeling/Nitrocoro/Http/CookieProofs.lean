import Nitrocoro.Http.Cookie

/-! A cookie is read back from the text that is written for it. -/
namespace Nitrocoro.Http
open Text List

/-- A text that can stand in a header line: no line end in it and no space around it. -/
structure HeaderText (s : Bytes) : Prop where
  cr : 13 ∉ s
  lf : 10 ∉ s
  trimmed : Trimmed 32 s

theorem HeaderText.join (first : HeaderText s) (front : s ≠ []) (last : HeaderText t)
    (back : t ≠ []) (cr : 13 ∉ m) (lf : 10 ∉ m) : HeaderText (s ++ (m ++ t)) := by
  refine ⟨by simp [first.cr, last.cr, cr], by simp [first.lf, last.lf, lf], ?_, ?_⟩
  · rw [List.head?_append_of_ne_nil _ front]
    exact first.trimmed.1
  · rw [List.getLast?_append_of_ne_nil _ (by simp [back]), List.getLast?_append_of_ne_nil _ back]
    exact last.trimmed.2

/-- A field that can stand in a cookie, where semicolons separate. -/
structure Plain (s : Bytes) : Prop extends HeaderText s where
  semicolon : 59 ∉ s

instance : Decidable (Plain s) :=
  decidable_of_iff ((13 ∉ s ∧ 10 ∉ s ∧ Trimmed 32 s) ∧ 59 ∉ s)
    ⟨fun ⟨⟨a, b, c⟩, d⟩ => ⟨⟨a, b, c⟩, d⟩, fun p => ⟨⟨p.cr, p.lf, p.trimmed⟩, p.semicolon⟩⟩

namespace Plain

theorem append (first : Plain s) (last : Plain t) (front : s ≠ []) : Plain (s ++ t) := by
  refine ⟨⟨by simp [first.cr, last.cr], by simp [first.lf, last.lf], ?_, ?_⟩,
    by simp [first.semicolon, last.semicolon]⟩
  · rw [List.head?_append_of_ne_nil _ front]
    exact first.trimmed.1
  by_cases back : t = []
  · rw [back, append_nil]
    exact first.trimmed.2
  · rw [List.getLast?_append_of_ne_nil _ back]
    exact last.trimmed.2

theorem print (n : Nat) : Plain (Numeral.print 10 n) := by
  have digits := (Numeral.print_digits (by decide : 1 < 10) (by decide) n).digits
  refine ⟨⟨fun mem => ?_, fun mem => ?_, fun first => ?_, fun last => ?_⟩, fun mem => ?_⟩
  · exact absurd (digits _ mem) (by decide)
  · exact absurd (digits _ mem) (by decide)
  · exact absurd (digits _ (mem_of_mem_head? first)) (by decide)
  · exact absurd (digits _ (mem_of_getLast? last)) (by decide)
  · exact absurd (digits _ mem) (by decide)

theorem assign (key : Plain s) (front : s ≠ []) (value : Plain t) : Plain (s ++ 61 :: t) := by
  have equals : Plain (61 :: t) := append (s := [61]) (by decide) value (by decide)
  exact key.append equals front

end Plain

namespace Cookie

structure Good (c : Cookie) : Prop where
  named : c.name ≠ []
  unsplit : 61 ∉ c.name
  name : Plain c.name
  value : Plain c.value
  domain : Plain c.domain
  path : Plain c.path
  expires : Plain c.expires
  maxAge : -1 ≤ c.maxAge ∧ c.maxAge < 2 ^ 31

variable {c : Cookie}

theorem applyToken_attribute (absent : 61 ∉ key) (named : Plain key) (front : key ≠ [])
    (plain : Plain v) : c.applyToken (32 :: (key ++ 61 :: v)) = c.setAttribute (toLower key) v := by
  have token : trim 32 (32 :: (key ++ 61 :: v)) = key ++ 61 :: v := by
    simpa using trim_padded (k := 1) (m := 0) (named.assign front plain).trimmed
  have assigned : 61 ∈ toLower (key ++ 61 :: v) := by
    simp only [toLower, map_append, map_cons, mem_append, mem_cons]
    exact .inr (.inl (by decide))
  have notSecure : toLower (key ++ 61 :: v) ≠ ascii "secure" := by
    intro same
    rw [same] at assigned
    exact absurd assigned (by decide)
  have notHttpOnly : toLower (key ++ 61 :: v) ≠ ascii "httponly" := by
    intro same
    rw [same] at assigned
    exact absurd assigned (by decide)
  have cut : (key ++ 61 :: v).drop (key.length + 1) = v := by
    rw [← singleton_append, ← append_assoc]
    exact drop_left' (by simp)
  simp only [applyToken, token, if_neg notSecure, if_neg notHttpOnly, findChar_append absent,
    take_left, cut, trim_eq_self named.trimmed, trim_eq_self plain.trimmed]

theorem foldl_optional (absent : 61 ∉ key) (named : Plain key) (front : key ≠ [])
    (plain : Plain v) (set : Cookie) (assigned : c.setAttribute (toLower key) v = set)
    (skipped : v = [] → set = c) :
    ((if v = [] then [] else [key ++ 61 :: v]).map (32 :: ·)).foldl applyToken c = set := by
  by_cases empty : v = []
  · rw [if_pos empty]
    exact (skipped empty).symm
  · simp only [if_neg empty, map_cons, map_nil, foldl_cons, foldl_nil]
    rw [applyToken_attribute absent named front plain, assigned]

theorem foldl_expires (unset : c.expires = []) (plain : Plain v) :
    ((if v = [] then [] else [ascii "Expires=" ++ v]).map (32 :: ·)).foldl applyToken c =
      { c with expires := v } :=
  foldl_optional (by decide : 61 ∉ ascii "Expires") (by decide) (by decide) plain
    { c with expires := v } rfl fun empty => by rw [empty, ← unset]

theorem foldl_domain (unset : c.domain = []) (plain : Plain v) :
    ((if v = [] then [] else [ascii "Domain=" ++ v]).map (32 :: ·)).foldl applyToken c =
      { c with domain := v } :=
  foldl_optional (by decide : 61 ∉ ascii "Domain") (by decide) (by decide) plain
    { c with domain := v } rfl fun empty => by rw [empty, ← unset]

theorem foldl_path (unset : c.path = []) (plain : Plain v) :
    ((if v = [] then [] else [ascii "Path=" ++ v]).map (32 :: ·)).foldl applyToken c =
      { c with path := v } :=
  foldl_optional (by decide : 61 ∉ ascii "Path") (by decide) (by decide) plain
    { c with path := v } rfl fun empty => by rw [empty, ← unset]

theorem foldl_maxAge (range : -1 ≤ age ∧ age < 2 ^ 31) (unset : c.maxAge = -1) :
    ((if 0 ≤ age then [ascii "Max-Age=" ++ Numeral.print 10 age.toNat] else []).map
        (32 :: ·)).foldl applyToken c = { c with maxAge := age } := by
  by_cases set : 0 ≤ age
  · have read : Numeral.stoi (Numeral.print 10 age.toNat) = .ok age := by
      have := Numeral.stoi_print (t := []) (n := age.toNat) (by omega) nofun
      rwa [append_nil, Int.toNat_of_nonneg set] at this
    have applied := applyToken_attribute (c := c) (by decide : 61 ∉ ascii "Max-Age") (by decide)
      (by decide) (Plain.print age.toNat)
    simp only [if_pos set]
    apply Eq.trans applied
    have named : toLower (ascii "Max-Age") = ascii "max-age" := by decide
    rw [named]
    simp [setAttribute, read, show ascii "max-age" ≠ ascii "path" by decide,
      show ascii "max-age" ≠ ascii "domain" by decide,
      show ascii "max-age" ≠ ascii "expires" by decide]
  · have same : age = c.maxAge := by omega
    rw [if_neg set, same]
    rfl

theorem foldl_secure (unset : c.secure = false) (secure : Bool) :
    ((if secure then [ascii "Secure"] else []).map (32 :: ·)).foldl applyToken c =
      { c with secure } := by
  cases secure with
  | true => rfl
  | false =>
    show c = { c with secure := false }
    rw [← unset]

theorem foldl_httpOnly (unset : c.httpOnly = false) (httpOnly : Bool) :
    ((if httpOnly then [ascii "HttpOnly"] else []).map (32 :: ·)).foldl applyToken c =
      { c with httpOnly } := by
  cases httpOnly with
  | true => rfl
  | false =>
    show c = { c with httpOnly := false }
    rw [← unset]

theorem foldl_sameSite (unset : c.sameSite = .unset) (sameSite : SameSite) :
    ((match sameSite with
      | .strict => [ascii "SameSite=Strict"]
      | .lax => [ascii "SameSite=Lax"]
      | .none => [ascii "SameSite=None"]
      | .unset => []).map (32 :: ·)).foldl applyToken c = { c with sameSite } := by
  cases sameSite with
  | unset =>
    show c = { c with sameSite := .unset }
    rw [← unset]
  | strict => rfl
  | lax => rfl
  | none => rfl

theorem foldl_attributes (good : c.Good) :
    (c.attributes.map (32 :: ·)).foldl applyToken { name := c.name, value := c.value } = c := by
  simp only [attributes, map_append, foldl_append]
  rw [foldl_expires rfl good.expires, foldl_maxAge good.maxAge rfl, foldl_domain rfl good.domain,
    foldl_path rfl good.path, foldl_secure rfl, foldl_httpOnly rfl]
  exact foldl_sameSite rfl c.sameSite

theorem attributes_plain (good : c.Good) (mem : a ∈ c.attributes) : Plain a ∧ a ≠ [] := by
  have written : ∀ {key v : Bytes}, Plain key → key ≠ [] → Plain v →
      Plain (key ++ v) ∧ key ++ v ≠ [] :=
    fun key front value => ⟨key.append value front, by simp [front]⟩
  simp only [attributes, mem_append] at mem
  rcases mem with (((((mem | mem) | mem) | mem) | mem) | mem) | mem
  · split at mem
    · cases mem
    · rw [mem_singleton.mp mem]
      exact written (by decide) (by decide) good.expires
  · split at mem
    · rw [mem_singleton.mp mem]
      exact written (by decide) (by decide) (.print _)
    · cases mem
  · split at mem
    · cases mem
    · rw [mem_singleton.mp mem]
      exact written (by decide) (by decide) good.domain
  · split at mem
    · cases mem
    · rw [mem_singleton.mp mem]
      exact written (by decide) (by decide) good.path
  · split at mem
    · rw [mem_singleton.mp mem]
      decide
    · cases mem
  · split at mem
    · rw [mem_singleton.mp mem]
      decide
    · cases mem
  split at mem
  · rw [mem_singleton.mp mem]
    decide
  · rw [mem_singleton.mp mem]
    decide
  · rw [mem_singleton.mp mem]
    decide
  · cases mem

theorem toString_eq : c.toString = (c.name ++ 61 :: c.value) ++
    (c.attributes.map (32 :: ·)).flatMap (59 :: ·) := by
  simp [toString, flatMap_map, ascii]

theorem fromString_toString (good : c.Good) : fromString c.toString = c := by
  have first := good.name.assign good.named good.value
  have cut : pieces 59 c.toString =
      (c.name ++ 61 :: c.value) :: c.attributes.map (32 :: ·) := by
    rw [toString_eq]
    apply pieces_join first.semicolon (by simp)
    intro t mem
    obtain ⟨a, member, rfl⟩ := mem_map.mp mem
    simp [(attributes_plain good member).1.semicolon]
  have value : (c.name ++ 61 :: c.value).drop (c.name.length + 1) = c.value := by
    rw [← singleton_append, ← append_assoc]
    exact drop_left' (by simp)
  simp only [fromString, cut, trim_eq_self first.trimmed, findChar_append good.unsplit,
    take_left, value, trim_eq_self good.name.trimmed, trim_eq_self good.value.trimmed,
    if_neg good.named]
  exact foldl_attributes good

theorem toString_text (good : c.Good) : HeaderText c.toString := by
  have plain := fun a => attributes_plain (a := a) good
  have start := (good.name.assign good.named good.value).toHeaderText
  have front : c.name ++ 61 :: c.value ≠ [] := by simp
  rw [toString_eq]
  generalize c.attributes = attributes at plain
  generalize c.name ++ 61 :: c.value = s at start front
  induction attributes generalizing s with
  | nil => simpa using start
  | cons a attributes ih =>
    obtain ⟨text, some⟩ := plain a mem_cons_self
    have grown := start.join (m := [59, 32]) front text.toHeaderText some (by decide) (by decide)
    simpa using ih (fun b mem => plain b (mem_cons_of_mem _ mem)) _ grown (by simp)

end Cookie
end Nitrocoro.Http
