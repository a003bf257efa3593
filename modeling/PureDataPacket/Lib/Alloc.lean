/-
# `PureDataPacket.Lib.Alloc` — a block of memory whose size is an `int`

`pdp_alloc` takes an `int`, and its callers compute sizes that are larger.  Such a size is cut to
32 bits: `malloc` refuses what is negative, and what is left of the others is too small a block.
In both cases what is written to the array is written somewhere else.
-/
import PureDataPacket.Lib.CInt

namespace PureDataPacket

/-- `pdp_alloc(size)`, where `malloc` has memory: a block of all these bytes. -/
def pdpAlloc (size : Nat) : Option Unit := if toInt32 size = size then some () else none

theorem toInt32_eq_natCast_iff {n : Nat} : toInt32 n = n ↔ n < 2 ^ 31 := by
  refine ⟨fun h => ?_, toInt32_of_nat_lt⟩
  have hint := isInt_toInt32 n
  rw [h] at hint
  exact_mod_cast hint.2

theorem pdpAlloc_eq_some {size : Nat} : pdpAlloc size = some () ↔ size < 2 ^ 31 := by
  unfold pdpAlloc
  rw [← toInt32_eq_natCast_iff]
  split
  · next h => exact iff_of_true rfl h
  · next h => exact iff_of_false (fun hs => by cases hs) h

theorem pdpAlloc_eq_none {size : Nat} : pdpAlloc size = none ↔ 2 ^ 31 ≤ size := by
  rw [← Nat.not_lt, ← pdpAlloc_eq_some]
  cases pdpAlloc size with
  | none => exact iff_of_true rfl fun h => by cases h
  | some _ => exact iff_of_false (fun h => by cases h) fun h => h rfl

end PureDataPacket
