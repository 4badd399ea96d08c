import Nitrocoro.Http.Header

/-! `Url`: the parts that a URL is cut into, and the port that it names. -/
namespace Nitrocoro.Net
open Text Numeral
open Http (toLower)

structure Url where
  scheme : Bytes := []
  host : Bytes := []
  port : UInt16 := 0
  path : Bytes := []
  query : Bytes := []
  valid : Bool := false
  deriving DecidableEq

namespace Url

def getDefaultPort (scheme : Bytes) : UInt16 :=
  if scheme = ascii "http" ∨ scheme = ascii "ws" then 80
  else if scheme = ascii "https" ∨ scheme = ascii "wss" then 443
  else 0

/-- The loop over the text of a port, and whether it comes to the end. -/
def parsePort (port : UInt16) : Bytes → UInt16 × Bool
  | [] => (port, true)
  | c :: s =>
    if c < 48 ∨ 57 < c then (port, false) else parsePort (port * 10 + (c - 48).toUInt16) s

def cut (url : Bytes) : Option (Bytes × Bytes × Bytes) :=
  (find (ascii "://") url).map fun schemeEnd =>
    let rest := url.drop (schemeEnd + 3)
    let hostEnd := min ((findChar 47 rest).getD rest.length) ((findChar 63 rest).getD rest.length)
    (toLower (url.take schemeEnd), rest.take hostEnd, rest.drop hostEnd)

/-- The path and the query, and the check of what was read before them. -/
def finish (u : Url) (rest : Bytes) : Url :=
  let (path, query) :=
    if rest.head? = some 47 then
      match findChar 63 rest with
      | none => (rest, [])
      | some pathEnd => (rest.take pathEnd, rest.drop (pathEnd + 1))
    else (ascii "/", if rest.head? = some 63 then rest.drop 1 else [])
  { u with path, query, valid := u.scheme ≠ [] && u.host ≠ [] && 0 < u.port }

def parse (url : Bytes) : Url :=
  match cut url with
  | none => {}
  | some (scheme, hostPart, rest) =>
    match findChar 58 hostPart with
    | some portPos =>
      let (port, numeric) := parsePort 0 (hostPart.drop (portPos + 1))
      let u := { scheme, host := hostPart.take portPos, port }
      -- a character that is no digit ends the parsing
      if numeric then finish u rest else u
    | none => finish { scheme, host := hostPart, port := getDefaultPort scheme } rest

def portText (url : Bytes) : Option Bytes :=
  (cut url).bind fun (_, hostPart, _) =>
    (findChar 58 hostPart).map fun portPos => hostPart.drop (portPos + 1)

theorem digit_of_range (c : UInt8) (within : ¬ (c < 48 ∨ 57 < c)) :
    digit 10 c = some (c - 48).toNat := by
  revert c
  exact forall_byte (by decide +kernel)

theorem parsePort_digits (read : (parsePort (.ofNat n) s).2 = true) :
    (∀ c ∈ s, (digit 10 c).isSome) ∧ (parsePort (.ofNat n) s).1 =
      .ofNat ((s.filterMap (digit 10)).foldl (fun n d => d + 10 * n) n) := by
  induction s generalizing n with
  | nil => exact ⟨nofun, rfl⟩
  | cons c s ih =>
    rw [parsePort] at read ⊢
    split at read
    · cases read
    rename_i within
    have here := digit_of_range c within
    have next : UInt16.ofNat n * 10 + (c - 48).toUInt16 = .ofNat ((c - 48).toNat + 10 * n) := by
      rw [← UInt16.toNat_inj, UInt16.toNat_add, UInt16.toNat_mul, UInt8.toNat_toUInt16]
      simp only [UInt16.toNat_ofNat', UInt16.reduceToNat]
      omega
    rw [next] at read
    obtain ⟨digits, number⟩ := ih read
    refine ⟨List.forall_mem_cons.mpr ⟨by rw [here]; rfl, digits⟩, ?_⟩
    rw [if_neg within, next, number, List.filterMap_cons, here, List.foldl_cons]

theorem port_eq (valid : (parse url).valid = true) (explicit : portText url = some text) :
    Digits 10 text ∧ (parse url).port = .ofNat (number text) ∧ 0 < (parse url).port := by
  obtain ⟨⟨scheme, hostPart, rest⟩, parts, found⟩ := Option.bind_eq_some_iff.mp explicit
  obtain ⟨portPos, colon, rfl⟩ := Option.map_eq_some_iff.mp found
  simp only [parse, parts, colon] at valid ⊢
  split at valid
  · rename_i read
    obtain ⟨digits, same⟩ := parsePort_digits read
    have positive : 0 < (parsePort 0 (hostPart.drop (portPos + 1))).1 := by
      simpa using (Bool.and_eq_true_iff.mp valid).2
    rw [if_pos read]
    refine ⟨⟨?_, digits⟩, ?_, positive⟩
    · intro empty
      rw [empty] at positive
      exact absurd positive (by decide)
    · rw [number, value_eq_foldl]
      exact same
  · cases valid

/-- A URL that is valid has digits for its port, and the port is their number exactly if that is
below 65536. -/
theorem port_exact_iff (valid : (parse url).valid = true) (explicit : portText url = some text) :
    (Digits 10 text ∧ 1 ≤ number text ∧ number text ≤ 65535 ∧
      (parse url).port.toNat = number text) ↔ number text < 65536 := by
  obtain ⟨digits, port, positive⟩ := port_eq valid explicit
  constructor
  · omega
  intro below
  have exact_ : (parse url).port.toNat = number text := by
    rw [port, UInt16.toNat_ofNat', Nat.mod_eq_of_lt below]
  have some : 0 < (parse url).port.toNat := positive
  exact ⟨digits, by omega, by omega, exact_⟩

theorem port_exact_plain : (parse (ascii "http://h:80")).valid = true ∧
    (parse (ascii "http://h:80")).port.toNat = number (ascii "80") := by
  have valid : (parse (ascii "http://h:80")).valid = true := by decide
  have explicit : portText (ascii "http://h:80") = some (ascii "80") := by decide
  exact ⟨valid, ((port_exact_iff valid explicit).mpr (by decide)).2.2.2⟩

/-- A port beyond the range is taken for another one. -/
theorem port_wraps : (parse (ascii "http://h:65616")).valid = true ∧
    portText (ascii "http://h:65616") = some (ascii "65616") ∧
    number (ascii "65616") = 65616 ∧ (parse (ascii "http://h:65616")).port = 80 := by
  decide

end Url
end Nitrocoro.Net
