/-
# `PureDataPacket.Lib.Memory` — numbers in a memory of bytes

A memory has a byte at each address.  A number is stored in `n` bytes, the lowest one first, and
read back from them.  What is read depends on these bytes alone, so a number that is stored
elsewhere does not change it.
-/
import Mathlib.Algebra.Group.Int.Defs
import Mathlib.Algebra.Group.Nat.Defs
import Mathlib.Tactic.Common

namespace PureDataPacket

abbrev Memory : Type := Nat → UInt8

namespace Memory

/-- The number in the `n` bytes from `a`. -/
def load (m : Memory) : Nat → Nat → Nat
  | 0, _ => 0
  | n + 1, a => (m a).toNat + 256 * m.load n (a + 1)

/-- Write `v` to the `n` bytes from `a`. -/
def store (m : Memory) (n a v : Nat) : Memory :=
  fun i => if a ≤ i ∧ i < a + n then UInt8.ofNat (v / 256 ^ (i - a)) else m i

def poke (m : Memory) (a : Nat) (v : UInt8) : Memory := fun i => if i = a then v else m i

variable {m m' : Memory} {n a b v : Nat}

theorem load_congr (h : ∀ i, a ≤ i → i < a + n → m' i = m i) : m'.load n a = m.load n a := by
  induction n generalizing a with
  | zero => rfl
  | succ n ih =>
      have hfirst := h a (Nat.le_refl a) (by omega)
      have hrest := ih (a := a + 1) fun i hi hlt => h i (by omega) (by omega)
      unfold load
      rw [hfirst, hrest]

/-- What is stored at the end of a range that begins earlier. -/
theorem load_store_from (m : Memory) (a v : Nat) {k n : Nat} :
    (m.store (k + n) a v).load n (a + k) = v / 256 ^ k % 256 ^ n := by
  induction n generalizing k with
  | zero => exact (Nat.mod_one _).symm
  | succ n ih =>
      have hbyte : m.store (k + (n + 1)) a v (a + k) = UInt8.ofNat (v / 256 ^ k) := by
        unfold store
        rw [if_pos (by omega), Nat.add_sub_cancel_left]
      have hrest := ih (k := k + 1)
      rw [show k + 1 + n = k + (n + 1) by omega, show a + (k + 1) = a + k + 1 by omega] at hrest
      have hmod : v / 256 ^ k % 256 ^ (n + 1) =
          v / 256 ^ k % 256 + 256 * (v / 256 ^ (k + 1) % 256 ^ n) := by
        rw [Nat.pow_succ 256 n, Nat.mul_comm (256 ^ n) 256, Nat.mod_mul, Nat.div_div_eq_div_mul,
          ← Nat.pow_succ]
      rw [load, hbyte, hrest, hmod, UInt8.toNat_ofNat']

theorem load_store_self (m : Memory) (a : Nat) (hv : v < 256 ^ n) :
    (m.store n a v).load n a = v := by
  have h := load_store_from m a v (k := 0) (n := n)
  rwa [Nat.zero_add, Nat.add_zero, Nat.pow_zero, Nat.div_one, Nat.mod_eq_of_lt hv] at h

theorem store_other {i : Nat} (h : i < a ∨ a + n ≤ i) : m.store n a v i = m i :=
  if_neg (by omega)

theorem load_store_other (h : b + n ≤ a ∨ a + n ≤ b) : (m.store n a v).load n b = m.load n b :=
  load_congr fun _ _ _ => store_other (by omega)

theorem load_poke_other {w : UInt8} (h : a < b ∨ b + n ≤ a) : (m.poke a w).load n b = m.load n b :=
  load_congr fun _ _ _ => if_neg (by omega)

end Memory

end PureDataPacket
