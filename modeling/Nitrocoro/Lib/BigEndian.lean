import Mathlib.Data.Nat.Init
import Mathlib.Tactic.Ring

/-! Natural numbers as bytes of a fixed width, the most significant byte first. -/
namespace BigEndian

def encode : (width : Nat) → Nat → List UInt8
  | 0, _ => []
  | width + 1, n => UInt8.ofNat (n >>> (8 * width)) :: encode width n

def decode (bytes : List UInt8) : Nat := bytes.foldl (fun n byte => n * 256 + byte.toNat) 0

@[simp] theorem length_encode (width n : Nat) : (encode width n).length = width := by
  induction width with
  | zero => rfl
  | succ width ih => simp [encode, ih]

theorem foldl_encode (width n start : Nat) :
    (encode width n).foldl (fun n byte => n * 256 + byte.toNat) start =
      start * 256 ^ width + n % 256 ^ width := by
  induction width generalizing start with
  | zero => simp [encode, Nat.mod_one]
  | succ width ih =>
    have high : n >>> (8 * width) = n / 256 ^ width := by
      rw [Nat.shiftRight_eq_div_pow, Nat.pow_mul]
    have cut : n % 256 ^ (width + 1) = 256 ^ width * (n / 256 ^ width % 256) + n % 256 ^ width := by
      rw [pow_succ, Nat.mod_mul, Nat.add_comm]
    simp only [encode, List.foldl_cons, ih, UInt8.toNat_ofNat', high, cut]
    ring

theorem decode_encode (small : n < 256 ^ width) : decode (encode width n) = n := by
  rw [decode, foldl_encode, Nat.mod_eq_of_lt small]
  simp

end BigEndian
