/-
# `PureDataPacket.Lib.Binary32` — rounding to C's `float`

The value of a finite `float` is a rational number, and the result of an
operation is the nearest one with 24 significant digits, the even one of two
that are equally near.  `toFloat` is this rounding and `truncate` the
conversion to an integer.

Integers below `2 ^ 24` are `float`s, so rounding does not go past them; this
is all that a range check before a conversion needs.
-/
import Mathlib.Data.Rat.Floor
import Mathlib.Data.Int.Log
import Mathlib.Tactic.Linarith

namespace PureDataPacket

/-- The nearest integer, the even one of two. -/
def roundEven (x : ℚ) : Int :=
  if Int.fract x < 1 / 2 then ⌊x⌋
  else if 1 / 2 < Int.fract x then ⌊x⌋ + 1
  else if ⌊x⌋ % 2 = 0 then ⌊x⌋ else ⌊x⌋ + 1

/-- The exponent of the last place of a `float` near `x`. -/
def lastPlace (x : ℚ) : Int := max (-149) (Int.log 2 |x| - 23)

/-- The nearest `float`. -/
def toFloat (x : ℚ) : ℚ := roundEven (x / 2 ^ lastPlace x) * 2 ^ lastPlace x

/-- The conversion of a `float` to an integer drops the fraction. -/
def truncate (x : ℚ) : Int := if x < 0 then ⌈x⌉ else ⌊x⌋

section Rounding

variable {x : ℚ} {n : Int}

theorem roundEven_le (h : x ≤ n) : roundEven x ≤ n := by
  have hfloor : ⌊x⌋ ≤ n := by exact_mod_cast (Int.floor_le x).trans h
  -- Only `⌊x⌋ + 1` can be too large, and then `x` is the integer `n`.
  have hstep : ¬ Int.fract x < 1 / 2 → ⌊x⌋ + 1 ≤ n := by
    intro hhalf
    have hne : ⌊x⌋ ≠ n := by
      rintro rfl
      have hfract : Int.fract x ≤ 0 := sub_nonpos.mpr h
      exact hhalf (by linarith)
    omega
  unfold roundEven
  split
  · exact hfloor
  · next hhalf =>
      have hnext := hstep hhalf
      split
      · exact hnext
      · split
        · exact hfloor
        · exact hnext

theorem le_roundEven (h : (n : ℚ) ≤ x) : n ≤ roundEven x := by
  have hfloor : n ≤ ⌊x⌋ := Int.le_floor.mpr h
  unfold roundEven
  split
  · exact hfloor
  · split
    · omega
    · split <;> omega

/-- The last place of a number below `2 ^ 24` is no more than a unit. -/
theorem lastPlace_nonpos (h : |x| < 2 ^ 24) : lastPlace x ≤ 0 := by
  have hlog : Int.log 2 |x| < 24 := by
    rcases (abs_nonneg x).eq_or_lt with hx | hx
    · rw [← hx, Int.log_zero_right]
      decide
    · rw [← Int.lt_zpow_iff_log_lt (by decide) hx]
      exact_mod_cast h
  unfold lastPlace
  omega

/-- So rounding such a number does not go past an integer. -/
theorem toFloat_mem (h : |x| < 2 ^ 24) {lo hi : Int} (hlo : (lo : ℚ) ≤ x)
    (hhi : x ≤ hi) : (lo : ℚ) ≤ toFloat x ∧ toFloat x ≤ hi := by
  obtain ⟨m, hm⟩ := Int.exists_eq_neg_ofNat (lastPlace_nonpos h)
  have hpos : (0 : ℚ) < 2 ^ m := by positivity
  have hscale : (2 : ℚ) ^ lastPlace x = (2 ^ m)⁻¹ := by
    rw [hm, zpow_neg, zpow_natCast]
  have hdiv : x / 2 ^ lastPlace x = x * 2 ^ m := by
    rw [hscale, div_inv_eq_mul]
  have hvalue : toFloat x = roundEven (x * 2 ^ m) / 2 ^ m := by
    unfold toFloat
    rw [hdiv, hscale, div_eq_mul_inv]
  rw [hvalue]
  constructor
  · rw [le_div_iff₀ hpos]
    have hround : lo * 2 ^ m ≤ roundEven (x * 2 ^ m) := by
      apply le_roundEven
      push_cast
      exact mul_le_mul_of_nonneg_right hlo hpos.le
    exact_mod_cast hround
  · rw [div_le_iff₀ hpos]
    have hround : roundEven (x * 2 ^ m) ≤ hi * 2 ^ m := by
      apply roundEven_le
      push_cast
      exact mul_le_mul_of_nonneg_right hhi hpos.le
    exact_mod_cast hround

theorem truncate_mem {lo hi : Int} (hlo : (lo : ℚ) ≤ x) (hhi : x ≤ hi) : lo ≤ truncate x ∧ truncate x ≤ hi := by
  unfold truncate
  split
  · next h =>
      have hceil : (lo : ℚ) ≤ ⌈x⌉ := hlo.trans (Int.le_ceil x)
      exact ⟨by exact_mod_cast hceil, Int.ceil_le.mpr hhi⟩
  · have hfloor : (⌊x⌋ : ℚ) ≤ hi := (Int.floor_le x).trans hhi
    exact ⟨Int.le_floor.mpr hlo, by exact_mod_cast hfloor⟩

end Rounding

end PureDataPacket
