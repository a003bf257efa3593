/-
# `PureDataPacket.Lib.Lanes` — words that hold several values

Code that handles two values in one word takes them apart with masks and puts them together
with `|`.  A lane of `i` bits and what is above it are `2 ^ i * y + x`, with `x < 2 ^ i`; the
bitwise operations work on both parts separately.
-/
import Mathlib.Data.Nat.Bitwise

namespace PureDataPacket

/-! ## Bitwise operations -/

section Bitwise

variable {i x y m n : Nat}

theorem bitwise_lanes {f : Bool → Bool → Bool} (hf : f false false = false) (hx : x < 2 ^ i)
    (hm : m < 2 ^ i) : Nat.bitwise f (2 ^ i * y + x) (2 ^ i * n + m) =
      2 ^ i * Nat.bitwise f y n + Nat.bitwise f x m := by
  refine Nat.eq_of_testBit_eq fun j => ?_
  rw [Nat.testBit_bitwise hf, Nat.testBit_two_pow_mul_add _ hx, Nat.testBit_two_pow_mul_add _ hm,
    Nat.testBit_two_pow_mul_add _ (Nat.bitwise_lt_two_pow hx hm)]
  split
  · rw [Nat.testBit_bitwise hf]
  · rw [Nat.testBit_bitwise hf]

theorem land_lanes (hx : x < 2 ^ i) (hm : m < 2 ^ i) :
    (2 ^ i * y + x) &&& (2 ^ i * n + m) = 2 ^ i * (y &&& n) + (x &&& m) :=
  bitwise_lanes rfl hx hm

theorem lor_lanes (hx : x < 2 ^ i) (hm : m < 2 ^ i) :
    (2 ^ i * y + x) ||| (2 ^ i * n + m) = 2 ^ i * (y ||| n) + (x ||| m) :=
  bitwise_lanes rfl hx hm

theorem xor_lanes (hx : x < 2 ^ i) (hm : m < 2 ^ i) :
    (2 ^ i * y + x) ^^^ (2 ^ i * n + m) = 2 ^ i * (y ^^^ n) + (x ^^^ m) :=
  bitwise_lanes rfl hx hm

theorem xor_top (hx : x < 2 ^ (i + 1)) : x ^^^ 2 ^ i = (x + 2 ^ i) % 2 ^ (i + 1) := by
  have hpos := Nat.two_pow_pos i
  have hpow : 2 ^ (i + 1) = 2 ^ i * 2 := Nat.pow_succ 2 i
  rw [hpow] at hx ⊢
  obtain ⟨q, r, hr, rfl⟩ : ∃ q r, r < 2 ^ i ∧ x = 2 ^ i * q + r :=
    ⟨x / 2 ^ i, x % 2 ^ i, Nat.mod_lt x hpos, (Nat.div_add_mod x (2 ^ i)).symm⟩
  have hq : q < 2 := Nat.lt_of_mul_lt_mul_left (Nat.lt_of_le_of_lt (Nat.le_add_right _ r) hx)
  have hlanes := xor_lanes (y := q) (n := 1) hr hpos
  rw [Nat.mul_one, Nat.add_zero, Nat.xor_zero] at hlanes
  rw [hlanes]
  rcases (by omega : q = 0 ∨ q = 1) with rfl | rfl
  · rw [Nat.mod_eq_of_lt (by omega)]
    show 2 ^ i * 1 + r = _
    omega
  · rw [show 2 ^ i * 1 + r + 2 ^ i = r + 2 ^ i * 2 by omega, Nat.add_mod_right,
      Nat.mod_eq_of_lt (by omega)]
    show 2 ^ i * 0 + r = r
    omega

end Bitwise

end PureDataPacket
