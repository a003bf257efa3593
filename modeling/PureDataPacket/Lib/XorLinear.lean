/-
# `PureDataPacket.Lib.XorLinear` — maps of words that respect `xor`

Such a map is known from its values on the words with one bit.  The list of these values can be
composed and squared, so that a high power of the map is found with few steps; a power that leaves
only zero in place excludes a period.

| | |
| :-- | :-- |
| `columns` | the values of a map on the words with one bit |
| `columns_iterate` | the columns of a power, by squaring |
| `minimalPeriod_eq_of_prime` | the period, from the powers that are left out |
-/
import Mathlib.Data.Nat.Prime.Basic
import Mathlib.Dynamics.PeriodicPts.Defs

namespace PureDataPacket

section Linear

variable {w : Nat} {f g : BitVec w → BitVec w}

/-- The map respects `xor`. -/
def XorLinear (f : BitVec w → BitVec w) : Prop := ∀ x y, f (x ^^^ y) = f x ^^^ f y

namespace XorLinear

theorem zero (h : XorLinear f) : f 0#w = 0#w := by
  have hzero := h 0#w 0#w
  rw [BitVec.xor_self] at hzero
  rw [hzero, BitVec.xor_self]

theorem id : XorLinear (fun x : BitVec w => x) := fun _ _ => rfl

theorem comp (hf : XorLinear f) (hg : XorLinear g) : XorLinear (f ∘ g) := fun x y => by
  rw [Function.comp_apply, hg, hf]
  rfl

theorem iterate (h : XorLinear f) (n : Nat) : XorLinear f^[n] := by
  induction n with
  | zero => exact id
  | succ n ih =>
      rw [Function.iterate_succ]
      exact ih.comp h

theorem xor (hf : XorLinear f) (hg : XorLinear g) : XorLinear fun x => f x ^^^ g x := fun x y => by
  show f (x ^^^ y) ^^^ g (x ^^^ y) = (f x ^^^ g x) ^^^ (f y ^^^ g y)
  rw [hf, hg, BitVec.xor_assoc, BitVec.xor_assoc, ← BitVec.xor_assoc (f y),
    BitVec.xor_comm (f y), BitVec.xor_assoc]

theorem ext (hf : XorLinear f) (hg : XorLinear g)
    (h : ∀ i < w, f (BitVec.twoPow w i) = g (BitVec.twoPow w i)) : f = g := by
  have hlow : ∀ k ≤ w, ∀ x : BitVec w, (∀ i, k ≤ i → x.getLsbD i = false) → f x = g x := by
    intro k
    induction k with
    | zero =>
        intro _ x hx
        have hzero : x = 0#w := BitVec.eq_of_getLsbD_eq fun i _ => by
          rw [hx i (Nat.zero_le i), BitVec.getLsbD_zero]
        rw [hzero, hf.zero, hg.zero]
    | succ k ih =>
        intro hk x hx
        by_cases hbit : x.getLsbD k = true
        · -- Without its highest bit the word is one of those before.
          have hrest : ∀ i, k ≤ i → (x ^^^ BitVec.twoPow w k).getLsbD i = false := by
            intro i hi
            rw [BitVec.getLsbD_xor, BitVec.getLsbD_twoPow]
            rcases Nat.eq_or_lt_of_le hi with rfl | hlt
            · rw [hbit, decide_eq_true (by omega), decide_eq_true rfl]
              rfl
            · rw [hx i hlt, decide_eq_false (show ¬k = i by omega), Bool.and_false]
              rfl
          have hsplit : x = (x ^^^ BitVec.twoPow w k) ^^^ BitVec.twoPow w k := by
            rw [BitVec.xor_assoc, BitVec.xor_self, BitVec.xor_zero]
          rw [hsplit, hf, hg, ih (by omega) _ hrest, h k (by omega)]
        · refine ih (by omega) x fun i hi => ?_
          rcases Nat.eq_or_lt_of_le hi with rfl | hlt
          · exact eq_false_of_ne_true hbit
          · exact hx i hlt
  funext x
  exact hlow w (Nat.le_refl w) x fun i hi => BitVec.getLsbD_of_ge x i hi

end XorLinear

/-! ## Columns -/

/-- The values on the words with one bit. -/
def columns (f : BitVec w → BitVec w) : List (BitVec w) :=
  (List.range w).map fun i => f (BitVec.twoPow w i)

/-- The map with these columns, for the bits from `i` on. -/
def combine : List (BitVec w) → Nat → BitVec w → BitVec w
  | [], _, _ => 0#w
  | c :: cs, i, x => (bif x.getLsbD i then c else 0#w) ^^^ combine cs (i + 1) x

theorem combine_linear (cs : List (BitVec w)) (i : Nat) : XorLinear (combine cs i) := by
  induction cs generalizing i with
  | nil => exact fun _ _ => BitVec.xor_self.symm
  | cons c cs ih =>
      intro x y
      unfold combine
      have hbit : (bif (x ^^^ y).getLsbD i then c else 0#w) =
          (bif x.getLsbD i then c else 0#w) ^^^ (bif y.getLsbD i then c else 0#w) := by
        rw [BitVec.getLsbD_xor]
        cases x.getLsbD i <;> cases y.getLsbD i <;> simp
      rw [hbit, ih, BitVec.xor_assoc, BitVec.xor_assoc, ← BitVec.xor_assoc _ (combine cs (i + 1) x),
        BitVec.xor_comm _ (combine cs (i + 1) x), BitVec.xor_assoc]

theorem combine_twoPow (cs : List (BitVec w)) {i k : Nat} (hk : k < w) :
    combine cs i (BitVec.twoPow w k) = if i ≤ k then (cs[k - i]?).getD 0#w else 0#w := by
  induction cs generalizing i with
  | nil => simp [combine]
  | cons c cs ih =>
      unfold combine
      rw [ih, BitVec.getLsbD_twoPow, decide_eq_true hk, Bool.true_and]
      rcases Nat.lt_trichotomy i k with hlt | rfl | hgt
      · have hindex : k - i = k - (i + 1) + 1 := by omega
        rw [decide_eq_false (by omega), if_pos (by omega), if_pos (by omega), hindex,
          List.getElem?_cons_succ]
        exact BitVec.zero_xor
      · rw [decide_eq_true rfl, if_neg (by omega), if_pos (Nat.le_refl _), Nat.sub_self]
        exact BitVec.xor_zero
      · rw [decide_eq_false (by omega), if_neg (by omega), if_neg (by omega)]
        exact BitVec.zero_xor

theorem combine_columns (h : XorLinear f) : combine (columns f) 0 = f := by
  refine (combine_linear _ 0).ext h fun i hi => ?_
  rw [combine_twoPow _ hi, if_pos (Nat.zero_le i), Nat.sub_zero, columns, List.getElem?_map,
    List.getElem?_range hi]
  rfl

theorem columns_comp (h : XorLinear f) (g : BitVec w → BitVec w) :
    columns (f ∘ g) = (columns g).map (combine (columns f) 0) := by
  rw [combine_columns h, columns, columns, List.map_map]
  rfl

theorem eq_of_columns (hf : XorLinear f) (hg : XorLinear g) (h : columns f = columns g) :
    f = g := by
  rw [← combine_columns hf, ← combine_columns hg, h]

/-! ## Powers -/

/-- A number, from its lowest bit up. -/
def ofBits : List Bool → Nat
  | [] => 0
  | b :: bits => 2 * ofBits bits + b.toNat

def powerColumns (cs : List (BitVec w)) : List Bool → List (BitVec w)
  | [] => columns fun x => x
  | b :: bits =>
      let half := powerColumns cs bits
      let square := half.map (combine half 0)
      bif b then square.map (combine cs 0) else square

theorem columns_iterate (h : XorLinear f) (bits : List Bool) :
    powerColumns (columns f) bits = columns f^[ofBits bits] := by
  induction bits with
  | nil => rfl
  | cons b bits ih =>
      have hsquare : (powerColumns (columns f) bits).map
          (combine (powerColumns (columns f) bits) 0) = columns f^[2 * ofBits bits] := by
        rw [ih, ← columns_comp (h.iterate _), ← Function.iterate_add, Nat.two_mul]
      cases b with
      | false => exact hsquare
      | true =>
          show ((powerColumns (columns f) bits).map _).map (combine (columns f) 0) = _
          rw [hsquare, ← columns_comp h]
          exact congrArg columns (Function.iterate_succ' f _).symm

/-- A map with a left inverse, found from its columns, leaves only zero at zero. -/
theorem eq_zero_of_inverse (h : XorLinear f) (cs : List (BitVec w))
    (hinverse : (columns f).map (combine cs 0) = columns fun x => x) {x : BitVec w}
    (hx : f x = 0#w) : x = 0#w := by
  have hcomp : columns (combine cs 0 ∘ f) = columns fun x => x := by
    rw [← hinverse, columns, columns, List.map_map]
    rfl
  have hid := eq_of_columns ((combine_linear cs 0).comp h) XorLinear.id hcomp
  have hback : combine cs 0 (f x) = x := congrFun hid x
  rw [hx, (combine_linear cs 0).zero] at hback
  exact hback.symm

theorem columns_xor (f g : BitVec w → BitVec w) :
    columns (fun x => f x ^^^ g x) = List.zipWith (· ^^^ ·) (columns f) (columns g) := by
  unfold columns
  rw [List.zipWith_map, List.zipWith_self]

/-- A power that leaves only zero in place, found from its columns. -/
theorem iterate_ne_self (h : XorLinear f) {bits : List Bool} (cs : List (BitVec w))
    (hinverse : (List.zipWith (· ^^^ ·) (powerColumns (columns f) bits)
      (columns fun x => x)).map (combine cs 0) = columns fun x => x) {x : BitVec w} (hx : x ≠ 0#w) :
    f^[ofBits bits] x ≠ x := by
  intro hfixed
  rw [columns_iterate h, ← columns_xor] at hinverse
  refine hx (eq_zero_of_inverse ((h.iterate _).xor XorLinear.id) cs hinverse ?_)
  rw [hfixed, BitVec.xor_self]

end Linear

/-! ## Periods -/

/-- A period is the smallest one if no prime can be taken out of it. -/
theorem minimalPeriod_eq_of_prime {α : Type} {f : α → α} {x : α} {n : Nat} (hx : f^[n] x = x)
    (hprime : ∀ p, p.Prime → p ∣ n → f^[n / p] x ≠ x) :
    Function.minimalPeriod f x = n := by
  have hdvd : Function.minimalPeriod f x ∣ n := Function.IsPeriodicPt.minimalPeriod_dvd hx
  obtain ⟨k, hk⟩ := hdvd
  by_contra hne
  have hk1 : k ≠ 1 := by
    rintro rfl
    exact hne (hk.trans (Nat.mul_one _)).symm
  obtain ⟨p, hp, hpk⟩ := Nat.exists_prime_and_dvd hk1
  obtain ⟨j, rfl⟩ := hpk
  refine hprime p hp ⟨Function.minimalPeriod f x * j, by rw [hk, Nat.mul_left_comm]⟩ ?_
  have hdiv : n / p = Function.minimalPeriod f x * j := by
    rw [hk, Nat.mul_left_comm, Nat.mul_div_cancel_left _ hp.pos]
  rw [hdiv]
  exact (Function.isPeriodicPt_minimalPeriod f x).mul_const j

end PureDataPacket
