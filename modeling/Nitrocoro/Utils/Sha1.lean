import Mathlib.Order.Bounds.Basic
import Nitrocoro.Lib.BigEndian
import Nitrocoro.Lib.Text

/-! `utils::sha1` against the algorithm of FIPS 180-4, and the padded length, which `utils::md5`
computes by the same expression. -/
namespace Nitrocoro.Utils.Sha1
open Text (Bytes ascii)
open List

/-- The mask `~63u` has 32 bits. It clears the upper half of the length as well. -/
def paddedLength (size : Nat) : Nat :=
  ((size + 1 + 8) % 18446744073709551616 + 63) % 18446744073709551616 &&& 4294967232

def padLen (size : Nat) : Nat := paddedLength size

def Md5.padLen (size : Nat) : Nat := paddedLength size

theorem and_mask (n : Nat) : n &&& 4294967232 = n % 4294967296 / 64 * 64 := by
  apply Nat.eq_of_testBit_eq
  intro i
  rw [show 4294967232 = (2 ^ 26 - 1) <<< 6 from rfl, show 4294967296 = 2 ^ 32 from rfl,
    show 64 = 2 ^ 6 from rfl, Nat.testBit_and, Nat.testBit_shiftLeft, Nat.testBit_two_pow_sub_one,
    Nat.testBit_mul_two_pow, Nat.testBit_div_two_pow, Nat.testBit_mod_two_pow]
  grind

theorem paddedLength_isLeast_iff (size : Nat) :
    IsLeast { n | 64 ∣ n ∧ size + 9 ≤ n } (paddedLength size) ↔ size + 72 < 4294967296 := by
  rw [paddedLength, and_mask]
  constructor
  · rintro ⟨⟨-, enough⟩, -⟩
    omega
  · intro small
    refine ⟨⟨Nat.dvd_mul_left .., by omega⟩, ?_⟩
    rintro n ⟨⟨m, rfl⟩, enough⟩
    omega

/-- The padded lengths are right up to the length where they do not fit into 32 bits. -/
theorem padLen_isLeast_iff (size : Nat) :
    (IsLeast { n | 64 ∣ n ∧ size + 9 ≤ n } (padLen size) ↔ size + 72 < 4294967296) ∧
      (IsLeast { n | 64 ∣ n ∧ size + 9 ≤ n } (Md5.padLen size) ↔ size + 72 < 4294967296) :=
  ⟨paddedLength_isLeast_iff size, paddedLength_isLeast_iff size⟩

/-- For `2 ^ 32 - 72` bytes the buffer is empty. -/
theorem padLen_wraps : ∃ size < 2305843009213693952, padLen size = 0 ∧ padLen size < size + 9 :=
  ⟨4294967224, by decide, by decide, by decide⟩

abbrev Word := BitVec 32

structure Hash where
  (a b c d e : Word)
  deriving DecidableEq

def Hash.init : Hash := ⟨0x67452301, 0xEFCDAB89, 0x98BADCFE, 0x10325476, 0xC3D2E1F0⟩

def Hash.add (h g : Hash) : Hash := ⟨h.a + g.a, h.b + g.b, h.c + g.c, h.d + g.d, h.e + g.e⟩

def message (input : Bytes) : Bytes :=
  let bitLen := input.length * 8 % 18446744073709551616
  let msg := input ++ (replicate (padLen input.length) 0).drop input.length
  (range 8).foldl (fun msg i => msg.set (padLen input.length - 8 + i)
    (UInt8.ofNat (bitLen >>> (56 - i * 8)))) (msg.set input.length 0x80)

def load (msg : Bytes) (i : Nat) : Word :=
  let b j := (msg.getD (i + j) 0).toBitVec.setWidth 32
  b 0 <<< 24 ||| b 1 <<< 16 ||| b 2 <<< 8 ||| b 3

def schedule (msg : Bytes) (offset : Nat) : List Word :=
  (range' 16 64).foldl (fun w i => w ++ [(w.getD (i - 3) 0 ^^^ w.getD (i - 8) 0 ^^^
      w.getD (i - 14) 0 ^^^ w.getD (i - 16) 0).rotateLeft 1])
    ((range 16).map fun i => load msg (offset + i * 4))

def round (w : List Word) (h : Hash) (i : Nat) : Hash :=
  let (f, k) : Word × Word :=
    if i < 20 then (h.b &&& h.c ||| ~~~h.b &&& h.d, 0x5A827999)
    else if i < 40 then (h.b ^^^ h.c ^^^ h.d, 0x6ED9EBA1)
    else if i < 60 then (h.b &&& h.c ||| h.b &&& h.d ||| h.c &&& h.d, 0x8F1BBCDC)
    else (h.b ^^^ h.c ^^^ h.d, 0xCA62C1D6)
  ⟨h.a.rotateLeft 5 + f + h.e + k + w.getD i 0, h.a, h.b.rotateLeft 30, h.c, h.d⟩

def store (h : Word) : Bytes :=
  [h >>> 24, h >>> 16, h >>> 8, h].map fun x => ⟨x.setWidth 8⟩

def Hash.store (h : Hash) : Bytes := [h.a, h.b, h.c, h.d, h.e].flatMap Sha1.store

def sha1 (input : Bytes) : Bytes :=
  let msg := message input
  ((range (padLen input.length / 64)).foldl (fun h block =>
    h.add ((range 80).foldl (round (schedule msg (block * 64))) h)) Hash.init).store

/-! The algorithm as the standard has it. -/
namespace Fips

def pad (m : Bytes) : Bytes :=
  m ++ 0x80 :: replicate ((119 - m.length % 64) % 64) 0 ++ BigEndian.encode 8 (8 * m.length)

/-- The words of a message are its bytes in fours. -/
def words : Bytes → List Word
  | a :: b :: c :: d :: m => (a.toBitVec ++ b.toBitVec ++ c.toBitVec ++ d.toBitVec) :: words m
  | _ => []

/-- The first words of the message schedule, each from those before it. -/
def W (M : Nat → Word) : Nat → List Word
  | 0 => []
  | t + 1 =>
    let W := W M t
    let word i := W.getD (t - i) 0
    W ++ [if t < 16 then M t else (word 3 ^^^ word 8 ^^^ word 14 ^^^ word 16).rotateLeft 1]

def f (t : Nat) (x y z : Word) : Word :=
  if t < 20 then (x &&& y) ^^^ (~~~x &&& z)
  else if t < 40 then x ^^^ y ^^^ z
  else if t < 60 then (x &&& y) ^^^ (x &&& z) ^^^ (y &&& z)
  else x ^^^ y ^^^ z

def K (t : Nat) : Word :=
  if t < 20 then 0x5A827999 else if t < 40 then 0x6ED9EBA1
  else if t < 60 then 0x8F1BBCDC else 0xCA62C1D6

/-- The working variables, and the words of a hash value. -/
abbrev State := Word × Word × Word × Word × Word

def H0 : State := (0x67452301, 0xEFCDAB89, 0x98BADCFE, 0x10325476, 0xC3D2E1F0)

def step (W : List Word) : State → Nat → State
  | (a, b, c, d, e), t =>
    (a.rotateLeft 5 + f t b c d + e + K t + W.getD t 0, a, b.rotateLeft 30, c, d)

def add : State → State → State
  | (a, b, c, d, e), (h0, h1, h2, h3, h4) => (a + h0, b + h1, c + h2, d + h3, e + h4)

def output : State → Bytes
  | (h0, h1, h2, h3, h4) => [h0, h1, h2, h3, h4].flatMap fun h => BigEndian.encode 4 h.toNat

def digest (m : Bytes) : Bytes :=
  let M i t := (words (pad m)).getD (16 * i + t) 0
  output ((range ((pad m).length / 64)).foldl (fun h i =>
    add ((range 80).foldl (step (W (M i) 80)) h) h) H0)

end Fips

theorem ch_eq (x y z : Word) : x &&& y ||| ~~~x &&& z = (x &&& y) ^^^ (~~~x &&& z) := by
  ext i
  grind

theorem maj_eq (x y z : Word) :
    x &&& y ||| x &&& z ||| y &&& z = (x &&& y) ^^^ (x &&& z) ^^^ (y &&& z) := by
  ext i
  grind

def Hash.toFips (h : Hash) : Fips.State := (h.a, h.b, h.c, h.d, h.e)

theorem round_eq (w : List Word) (h : Hash) (t : Nat) :
    (round w h t).toFips = Fips.step w h.toFips t := by
  simp only [round, Hash.toFips, Fips.step, Fips.f, Fips.K, ch_eq, maj_eq]
  split_ifs <;> rfl

theorem schedule_eq (words : ∀ t < 16, load msg (offset + t * 4) = M t) :
    schedule msg offset = Fips.W M 80 := by
  have first : ∀ n ≤ 16, (range n).map (fun t => load msg (offset + t * 4)) = Fips.W M n := by
    intro n
    induction n with
    | zero => exact fun _ => rfl
    | succ n ih =>
      intro within
      rw [range_succ, map_append, ih (by omega), map_singleton, words n within]
      simp only [Fips.W, if_pos (show n < 16 from within)]
  suffices steps : ∀ n, (range' 16 n).foldl _ _ = Fips.W M (16 + n) from steps 64
  intro n
  induction n with
  | zero => exact first 16 (Nat.le_refl _)
  | succ n ih =>
    rw [range'_concat, foldl_concat, ih]
    simp [Fips.W]

theorem load_four (a b c d : UInt8) (m : Bytes) : load (a :: b :: c :: d :: m) 0 =
      a.toBitVec ++ b.toBitVec ++ c.toBitVec ++ d.toBitVec := by
  apply BitVec.eq_of_getLsbD_eq
  intro i below
  simp only [load]
  simp
  grind

theorem words_getD (inside : 4 * t + 3 < msg.length) :
    (Fips.words msg).getD t 0 = load msg (4 * t) := by
  induction t generalizing msg with
  | zero =>
    match msg, inside with
    | a :: b :: c :: d :: m, _ => exact (load_four a b c d m).symm
  | succ t ih =>
    match msg, inside with
    | a :: b :: c :: d :: m, inside =>
      exact ih (by simp only [length_cons] at inside; omega)

theorem store_eq (h : Word) : store h = BigEndian.encode 4 h.toNat := rfl

theorem foldl_set (front : Bytes) (n : Nat) :
    (range 8).foldl (fun msg i => msg.set (front.length + i) (UInt8.ofNat (n >>> (56 - i * 8))))
      (front ++ replicate 8 0) = front ++ BigEndian.encode 8 n := by
  simp [range_succ, BigEndian.encode]

theorem message_eq (input : Bytes) (small : input.length + 72 < 4294967296) :
    message input = Fips.pad input ∧ (Fips.pad input).length = padLen input.length := by
  have length : padLen input.length = input.length + 1 + (119 - input.length % 64) % 64 + 8 := by
    rw [padLen, paddedLength, and_mask]
    omega
  have bits : input.length * 8 % 18446744073709551616 = 8 * input.length := by omega
  unfold message Fips.pad
  generalize (119 - input.length % 64) % 64 = zeros at length
  constructor
  · have marked : (input ++ (replicate (padLen input.length) 0).drop input.length).set
        input.length 0x80 = input ++ 0x80 :: replicate zeros 0 ++ replicate 8 0 := by
      have rest : padLen input.length - input.length = zeros + 8 + 1 := by omega
      rw [drop_replicate, rest, replicate_succ, replicate_add,
        set_append_right _ _ (Nat.le_refl _), Nat.sub_self, set_cons_zero, append_assoc, cons_append]
    have start : padLen input.length - 8 = (input ++ 0x80 :: replicate zeros 0).length := by
      simp
      omega
    simp only [marked, start, bits, foldl_set]
  · simp
    omega

theorem block_eq (w : List Word) (h : Hash) : (h.add ((range 80).foldl (round w) h)).toFips =
    Fips.add ((range 80).foldl (Fips.step w) h.toFips) h.toFips := by
  rw [foldl_hom Hash.toFips fun h t => (round_eq w h t).symm]
  simp only [Hash.toFips, Hash.add, Fips.add, BitVec.add_comm]

theorem store_toFips (h : Hash) : h.store = Fips.output h.toFips := by
  simp only [Hash.store, Fips.output, Hash.toFips]
  exact flatMap_congr fun h _ => store_eq h

/-- The digest is the one of the standard. -/
theorem sha1_eq_digest (small : input.length < 4294967296 - 72) :
    sha1 input = Fips.digest input := by
  obtain ⟨message, length⟩ := message_eq input (by omega)
  unfold sha1 Fips.digest
  rw [message, length, store_toFips]
  have within := Nat.div_mul_le_self (padLen input.length) 64
  have blocks : ∀ (h : Hash), ∀ i ∈ range (padLen input.length / 64),
      h.add ((range 80).foldl (round (schedule (Fips.pad input) (i * 64))) h) =
        h.add ((range 80).foldl (round (Fips.W
          (fun t => (Fips.words (Fips.pad input)).getD (16 * i + t) 0) 80)) h) := by
    intro h i block
    have words : ∀ t < 16, load (Fips.pad input) (i * 64 + t * 4) =
        (Fips.words (Fips.pad input)).getD (16 * i + t) 0 := by
      intro t below
      have inside : 4 * (16 * i + t) + 3 < (Fips.pad input).length := by
        have := mem_range.mp block
        omega
      rw [words_getD inside]
      congr 1
      omega
    rw [schedule_eq words]
  rw [foldl_ext _ _ _ blocks]
  exact congrArg Fips.output (foldl_hom Hash.toFips fun h i => (block_eq _ h).symm).symm

theorem sha1_eq_digest_abc : sha1 (ascii "abc") = Fips.digest (ascii "abc") :=
  sha1_eq_digest (by decide)

-- the examples that are published with the standard, of one and of two blocks
example : Fips.digest (ascii "abc") = [0xA9, 0x99, 0x3E, 0x36, 0x47, 0x06, 0x81, 0x6A, 0xBA, 0x3E,
    0x25, 0x71, 0x78, 0x50, 0xC2, 0x6C, 0x9C, 0xD0, 0xD8, 0x9D] := by
  decide +kernel

example : Fips.digest (ascii "abcdbcdecdefdefgefghfghighijhijkijkljklmklmnlmnomnopnopq") =
    [0x84, 0x98, 0x3E, 0x44, 0x1C, 0x3B, 0xD2, 0x6E, 0xBA, 0xAE, 0x4A, 0xA1, 0xF9, 0x51, 0x29, 0xE5,
      0xE5, 0x46, 0x70, 0xF1] := by
  decide +kernel

end Nitrocoro.Utils.Sha1
