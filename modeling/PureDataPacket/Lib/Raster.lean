/-
# `PureDataPacket.Lib.Raster` — filters that look at the neighbours along a line

A raster says which places of a memory make which line.  A filter gives each place a new
value, from what was there and in the places before and after it on its line.  `passOn`
does so in some of the places, and leaves the rest as they are: so a routine that works in
place has done `passOn` of the places it has been at.

The lines are apart, and passes over different lines commute.  So several passes over one
line after the other are as many passes over all of them.

| | |
| :-- | :-- |
| `ext_places` | memories that agree in the lines and around them |
| `passOn_passOn` | a pass over some lines after one over other lines |
| `foldl_passLine_iterate` | the passes over each line are passes over all |
-/
import Mathlib.Logic.Function.Basic
import PureDataPacket.Lib.Locality

namespace PureDataPacket

/-- Place `k` of line `i`, and the line and the place of an index. -/
structure Raster where
  lines : Nat
  count : Nat
  place : Nat → Nat → Int
  coords : Int → Option (Nat × Nat)
  coords_eq : ∀ {p i k}, coords p = some (i, k) ↔ i < lines ∧ k < count ∧ place i k = p

namespace Raster

variable {α : Type}

/-- The value before place `k`, unless it is the first one. -/
def before (r : Raster) (m : Int → α) (i k : Nat) : Option α :=
  if k = 0 then none else some (m (r.place i (k - 1)))

/-- The value after place `k`, unless it is the last one. -/
def behind (r : Raster) (m : Int → α) (i k : Nat) : Option α :=
  if k + 1 < r.count then some (m (r.place i (k + 1))) else none

/-- The new value of place `k` of line `i`. -/
def value (r : Raster) (f : Option α → α → Option α → α) (m : Int → α) (i k : Nat) : α :=
  f (r.before m i k) (m (r.place i k)) (r.behind m i k)

/-- The new values of the places selected. -/
def passOn (r : Raster) (f : Option α → α → Option α → α) (sel : Nat → Nat → Bool)
    (m : Int → α) : Int → α := fun p =>
  match r.coords p with
  | some (i, k) => if sel i k then r.value f m i k else m p
  | none => m p

/-- The new values of all places. -/
def pass (r : Raster) (f : Option α → α → Option α → α) : (Int → α) → Int → α :=
  r.passOn f fun _ _ => true

/-- The new values of one line. -/
def passLine (r : Raster) (f : Option α → α → Option α → α) (i : Nat) : (Int → α) → Int → α :=
  r.passOn f fun l _ => l == i

variable {r : Raster} {f : Option α → α → Option α → α} {m m' : Int → α} {i k : Nat}

/-! ## Places -/

theorem coords_place (hi : i < r.lines) (hk : k < r.count) :
    r.coords (r.place i k) = some (i, k) :=
  r.coords_eq.mpr ⟨hi, hk, rfl⟩

theorem passOn_place (sel : Nat → Nat → Bool) (hi : i < r.lines) (hk : k < r.count) :
    r.passOn f sel m (r.place i k) = if sel i k then r.value f m i k else m (r.place i k) := by
  unfold passOn
  rw [coords_place hi hk]

theorem passOn_other (sel : Nat → Nat → Bool) {p : Int} (hp : r.coords p = none) :
    r.passOn f sel m p = m p := by
  unfold passOn
  rw [hp]

theorem ext_places (r : Raster)
    (hin : ∀ i < r.lines, ∀ k < r.count, m (r.place i k) = m' (r.place i k))
    (hout : ∀ p, r.coords p = none → m p = m' p) : m = m' := by
  funext p
  cases hp : r.coords p with
  | none => exact hout p hp
  | some c =>
      obtain ⟨hi, hk, rfl⟩ := r.coords_eq.mp hp
      exact hin _ hi _ hk

theorem value_congr (hk : k < r.count)
    (hline : ∀ k < r.count, m (r.place i k) = m' (r.place i k)) :
    r.value f m i k = r.value f m' i k := by
  have hbefore : r.before m i k = r.before m' i k := by
    unfold before
    rw [hline (k - 1) (by omega)]
  have hbehind : r.behind m i k = r.behind m' i k := by
    unfold behind
    split
    · next h => rw [hline (k + 1) h]
    · rfl
  unfold value
  rw [hbefore, hbehind, hline k hk]

theorem passOn_congr {sel sel' : Nat → Nat → Bool}
    (h : ∀ i < r.lines, ∀ k < r.count, sel i k = sel' i k) :
    r.passOn f sel m = r.passOn f sel' m := by
  refine ext_places r (fun i hi k hk => ?_) fun p hp => ?_
  · rw [passOn_place sel hi hk, passOn_place sel' hi hk, h i hi k hk]
  · rw [passOn_other sel hp, passOn_other sel' hp]

theorem passOn_false : (r.passOn f fun _ _ => false) m = m := by
  refine ext_places r (fun i hi k hk => ?_) fun p hp => passOn_other _ hp
  rw [passOn_place _ hi hk]
  rfl

theorem update_passOn (sel : Nat → Nat → Bool) (hi : i < r.lines) (hk : k < r.count) :
    Function.update (r.passOn f sel m) (r.place i k) (r.value f m i k) =
      r.passOn f (fun i' k' => sel i' k' || (i' == i && k' == k)) m := by
  refine ext_places r (fun i' hi' k' hk' => ?_) fun p hp => ?_
  · rw [passOn_place _ hi' hk']
    by_cases hsame : i' = i ∧ k' = k
    · obtain ⟨rfl, rfl⟩ := hsame
      rw [Function.update_self, if_pos (by simp)]
    · have hplace : r.place i' k' ≠ r.place i k := by
        intro h
        have hcoords := coords_place hi' hk'
        rw [h, coords_place hi hk] at hcoords
        cases hcoords
        exact hsame ⟨rfl, rfl⟩
      have hnot : (i' == i && k' == k) = false := by simpa using hsame
      rw [Function.update_of_ne hplace, passOn_place sel hi' hk', hnot, Bool.or_false]
  · have hplace : p ≠ r.place i k := by
      rintro rfl
      rw [coords_place hi hk] at hp
      cases hp
    rw [Function.update_of_ne hplace, passOn_other _ hp, passOn_other _ hp]

/-! ## Lines -/

theorem passOn_passOn {s t : Nat → Bool} (hapart : ∀ i, s i = true → t i = false) :
    (r.passOn f fun i _ => s i) ((r.passOn f fun i _ => t i) m) =
      r.passOn f (fun i _ => s i || t i) m := by
  refine ext_places r (fun i hi k hk => ?_) fun p hp => ?_
  · rw [passOn_place _ hi hk, passOn_place _ hi hk, passOn_place _ hi hk]
    cases hs : s i with
    | false => rfl
    | true =>
        have ht := hapart i hs
        refine value_congr hk fun k' hk' => ?_
        rw [passOn_place _ hi hk', ht]
        rfl
  · rw [passOn_other _ hp, passOn_other _ hp, passOn_other _ hp]

theorem commute_passLine (i j : Nat) : Function.Commute (r.passLine f i) (r.passLine f j) := by
  rcases eq_or_ne i j with rfl | hne
  · exact Function.Commute.refl _
  · intro m
    have hapart : ∀ {i j : Nat}, i ≠ j → ∀ l, (l == i) = true → (l == j) = false := by
      intro i j hne l hl
      rw [beq_iff_eq] at hl
      rw [hl, beq_eq_false_iff_ne]
      exact hne
    unfold passLine
    rw [passOn_passOn (hapart hne), passOn_passOn (hapart hne.symm)]
    exact passOn_congr fun _ _ _ _ => Bool.or_comm _ _

theorem foldl_passLine (n : Nat) (m : Int → α) :
    (List.range n).foldl (fun m i => r.passLine f i m) m =
      r.passOn f (fun l _ => decide (l < n)) m := by
  induction n with
  | zero => exact ((passOn_congr fun i _ _ _ => by simp).trans passOn_false).symm
  | succ n ih =>
      have hapart : ∀ i, (i == n) = true → decide (i < n) = false := by
        intro i hi
        rw [beq_iff_eq] at hi
        exact decide_eq_false (by omega)
      rw [List.range_succ, List.foldl_append, List.foldl_cons, List.foldl_nil, ih, passLine,
        passOn_passOn hapart]
      refine passOn_congr fun i _ _ _ => ?_
      rw [Bool.eq_iff_iff]
      simp
      omega

/-- The passes over one line after the other are as many passes over all of them. -/
theorem foldl_passLine_iterate (nbp : Nat) (m : Int → α) :
    (List.range r.lines).foldl (fun m i => (r.passLine f i)^[nbp] m) m = (r.pass f)^[nbp] m := by
  have hall : (fun m => (List.range r.lines).foldl (fun m i => r.passLine f i m) m) =
      r.pass f := by
    funext m
    rw [foldl_passLine]
    exact passOn_congr fun i hi _ _ => by simpa using hi
  rw [foldl_iterate fun i _ j _ => commute_passLine i j, hall]

end Raster

end PureDataPacket
