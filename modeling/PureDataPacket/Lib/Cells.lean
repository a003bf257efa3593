/-
# `PureDataPacket.Lib.Cells` — counting what is in a row of cells

References are counted against the cells that have them.  What matters is one cell
that is written and one value that says that a cell is empty.
-/
import Mathlib.Data.List.Count

namespace PureDataPacket

variable {α : Type*} [DecidableEq α]

/-- One cell is written, in a row whose cells have any number of values. -/
theorem count_flatMap_range {f g : Nat → List α} {i : Nat} (hne : ∀ j, j ≠ i → g j = f j) (n : Nat)
    (p : α) :
    ((List.range n).flatMap g).count p + (if i < n then (f i).count p else 0) =
      ((List.range n).flatMap f).count p + if i < n then (g i).count p else 0 := by
  induction n with
  | zero => rfl
  | succ n ih =>
      rw [List.range_succ, List.flatMap_append, List.flatMap_append, List.count_append,
        List.count_append]
      simp only [List.flatMap_cons, List.flatMap_nil, List.append_nil]
      rcases Nat.lt_trichotomy i n with hlt | rfl | hgt
      · rw [hne n (Nat.ne_of_gt hlt)]
        simp only [hlt, Nat.lt_succ_of_lt hlt, if_true] at ih ⊢
        omega
      · simp only [Nat.lt_irrefl, Nat.lt_succ_self, if_true, if_false] at ih ⊢
        omega
      · rw [hne n (Nat.ne_of_lt hgt)]
        simp only [Nat.not_lt.mpr (Nat.le_of_lt hgt), Nat.not_lt.mpr (Nat.succ_le_of_lt hgt),
          if_false] at ih ⊢
        omega

theorem count_received {empty : α} (l : List α) (r : α) {p : α} (hp : p ≠ empty) :
    (if r = empty then l else r :: l).count p = l.count p + if r = p then 1 else 0 := by
  split
  · next hempty =>
      rw [if_neg (by rw [hempty]; exact Ne.symm hp)]
      rfl
  · rw [List.count_cons]
    simp only [beq_iff_eq]

end PureDataPacket
