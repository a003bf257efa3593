/-
# `PureDataPacket.Image.Cog` — the centre of gravity of an image

`_pdp_cog_perform` adds up the rows and the columns of an image in one pass.  The two arrays for
the sums have each other's size: `rowsums` has room for the columns and `columnsums` for the
rows.

The result is `none` when an access is outside an array or the image, a sum is read that was not
set, or one is no `int`.  What is computed from the sums is left out: it is floating point.

| | |
| :-- | :-- |
| `SumsUp` | the sums are those of the rows and the columns |
| `CogWorks` | what is owed |
| `exists_of_cogRow` | a round of the loop over `v` assigns the sum of row `v` |
| `eq_of_pdpCogPerform` | neither array is left only if each is as long as the other |
-/
import Mathlib.Algebra.BigOperators.Group.Finset.Basic
import Mathlib.Algebra.BigOperators.Intervals
import Mathlib.Algebra.Order.BigOperators.Group.Finset
import PureDataPacket.Image.Agreement
import PureDataPacket.Image.Scaling
import PureDataPacket.Kernel.Packet
import PureDataPacket.Lib.Assigned
import PureDataPacket.Lib.Elements

namespace PureDataPacket

/-! ## The loops -/

/-- What `t_pdp_cog` has for `_pdp_cog_perform`. -/
structure Cog where
  threshold : Int
  doThresholding : Bool

/-- What is added up for a pixel. -/
def Cog.sample (x : Cog) (d : S16) : Int :=
  let d := d.toInt
  if x.doThresholding then if d > x.threshold then d else if d < -x.threshold then -d else 0
  else d

/-- A round of the loop over `h`, in row `v`: `columnsums` and `rs`.  `*pp++` is the next
pixel. -/
def cogPixel (x : Cog) (image : List S16) (width v h : Nat) (s : Row Int × Int) :
    Option (Row Int × Int) := do
  let d ← image[width * v + h]?
  let sum ← s.1.fetch h
  let sum ← checkedS32 (sum + x.sample d)
  let columnsums ← s.1.assign h sum
  let rs ← checkedS32 (s.2 + x.sample d)
  return (columnsums, rs)

/-- `rowsums` and `columnsums`. -/
structure CogSums where
  rowsums : Row Int
  columnsums : Row Int
  deriving DecidableEq

/-- A round of the loop over `v`. -/
def cogRow (x : Cog) (image : List S16) (width v : Nat) (s : CogSums) : Option CogSums := do
  let (columnsums, rs) ← rounds (cogPixel x image width v) width 0 (s.columnsums, 0)
  let rowsums ← s.rowsums.assign v rs
  return ⟨rowsums, columnsums⟩

/-- `_pdp_cog_perform`, up to the sums. -/
def pdpCogPerform (x : Cog) (width height : Nat) (data0 : List S16) : Option CogSums := do
  let rowsums : Row Int := List.replicate width none
  let columnsums : Row Int := List.replicate height none
  let columnsums ← rounds (fun h (c : Row Int) => c.assign h 0) width 0 columnsums
  rounds (cogRow x data0 width) height 0 ⟨rowsums, columnsums⟩

/-! ## What the sums are meant to be -/

/-- What is added up for the pixel in column `h` and row `v`. -/
def cogAt (x : Cog) (image : List S16) (width v h : Nat) : Int :=
  x.sample (image.getD (width * v + h) 0)

/-- The sums are those of the rows and the columns. -/
def SumsUp (x : Cog) (image : List S16) (width height : Nat) (s : CogSums) : Prop :=
  (∀ v < height, s.rowsums.fetch v = some (∑ h ∈ Finset.range width, cogAt x image width v h)) ∧
    ∀ h < width, s.columnsums.fetch h =
      some (∑ v ∈ Finset.range height, cogAt x image width v h)

/-- The routine stays in its arrays and sums up the rows and the columns; all sums of rows and all
sums of columns have the same total. -/
def CogWorks (x : Cog) (width height : Nat) (image : List S16) : Prop :=
  ∃ s, pdpCogPerform x width height image = some s ∧ SumsUp x image width height s ∧
    ∑ v ∈ Finset.range height, (s.rowsums.fetch v).getD 0 =
      ∑ h ∈ Finset.range width, (s.columnsums.fetch h).getD 0

section Loops

variable {x : Cog} {image : List S16} {w h v k n : Nat}

theorem sample_bounds (x : Cog) (d : S16) : -2 ^ 15 ≤ x.sample d ∧ x.sample d ≤ 2 ^ 15 := by
  have hlo := BitVec.le_toInt d
  have hhi := BitVec.toInt_lt (x := d)
  unfold Cog.sample
  dsimp only
  split_ifs <;> omega

/-- A sum of at most `2 ^ 15` samples is an `int`. -/
theorem isInt_sum (f : Nat → Int) (hf : ∀ i, -2 ^ 15 ≤ f i ∧ f i ≤ 2 ^ 15) (hn : n < 2 ^ 16) :
    IsInt (∑ i ∈ Finset.range n, f i) := by
  have hlo : (n : Int) * -2 ^ 15 ≤ ∑ i ∈ Finset.range n, f i := by
    have hle := Finset.card_nsmul_le_sum (Finset.range n) f (-2 ^ 15) fun i _ => (hf i).1
    rwa [Finset.card_range, nsmul_eq_mul] at hle
  have hhi : ∑ i ∈ Finset.range n, f i ≤ (n : Int) * 2 ^ 15 := by
    have hle := Finset.sum_le_card_nsmul (Finset.range n) f (2 ^ 15) fun i _ => (hf i).2
    rwa [Finset.card_range, nsmul_eq_mul] at hle
  constructor <;> omega

/-- `columnsums` when `k` pixels of row `v` have been added. -/
def columnsAt (x : Cog) (image : List S16) (w v k : Nat) : Row Int :=
  .ofContents w fun j =>
    some (∑ y ∈ Finset.range (if j < k then v + 1 else v), cogAt x image w y j)

theorem cogPixel_eq (hsize : image.length = w * h) (hv : v < h) (hh : h < 2 ^ 15) (hk : k < w)
    (hw : w < 2 ^ 15) :
    cogPixel x image w v k (columnsAt x image w v k, ∑ j ∈ Finset.range k, cogAt x image w v j) =
      some (columnsAt x image w v (k + 1), ∑ j ∈ Finset.range (k + 1), cogAt x image w v j) := by
  have hpixel : w * v + k < image.length := hsize ▸ add_mul_lt hv hk
  have hd : image[w * v + k]? = some (image.getD (w * v + k) 0) := by
    rw [List.getElem?_eq_getElem hpixel, List.getD_eq_getElem _ _ hpixel]
  have hfetch : (columnsAt x image w v k).fetch k =
      some (∑ y ∈ Finset.range v, cogAt x image w y k) := by
    rw [columnsAt, Row.fetch_ofContents hk, if_neg (Nat.lt_irrefl k)]
  have hcolumn : IsInt (∑ y ∈ Finset.range (v + 1), cogAt x image w y k) :=
    isInt_sum (fun y => cogAt x image w y k) (fun y => sample_bounds x _) (by omega)
  have hrow : IsInt (∑ j ∈ Finset.range (k + 1), cogAt x image w v j) :=
    isInt_sum (fun j => cogAt x image w v j) (fun j => sample_bounds x _) (by omega)
  rw [Finset.sum_range_succ] at hcolumn hrow
  have hassign : (columnsAt x image w v k).assign k
      (∑ y ∈ Finset.range v, cogAt x image w y k + cogAt x image w v k) =
        some (columnsAt x image w v (k + 1)) := by
    rw [columnsAt, Row.assign_ofContents hk, columnsAt, Option.some.injEq]
    refine Row.ofContents_congr fun j _ => ?_
    rcases Nat.lt_trichotomy j k with hlt | rfl | hgt
    · rw [Function.update_of_ne (by omega), if_pos hlt, if_pos (by omega)]
    · rw [Function.update_self, if_pos (Nat.lt_succ_self j), Finset.sum_range_succ]
    · rw [Function.update_of_ne (by omega), if_neg (by omega), if_neg (by omega)]
  have hsample : x.sample (image.getD (w * v + k) 0) = cogAt x image w v k := rfl
  simp only [cogPixel, hd, hfetch, hsample, checkedS32_eq hcolumn, hassign, checkedS32_eq hrow,
    Option.bind_eq_bind, Option.bind_some]
  rw [Finset.sum_range_succ]
  rfl

/-- The sums when `v` rows have been added up. -/
def sumsAt (x : Cog) (image : List S16) (w v : Nat) : CogSums where
  rowsums := .ofContents w fun i =>
    if i < v then some (∑ j ∈ Finset.range w, cogAt x image w i j) else none
  columnsums := columnsAt x image w v 0

theorem cogRow_eq (hsize : image.length = w * h) (hv : v < h) (hh : h < 2 ^ 15) (hvw : v < w)
    (hw : w < 2 ^ 15) : cogRow x image w v (sumsAt x image w v) =
      some (sumsAt x image w (v + 1)) := by
  have hloop := @rounds_eq _ (cogPixel x image w v)
    (fun k => (columnsAt x image w v k, ∑ j ∈ Finset.range k, cogAt x image w v j)) w 0
    fun k _ hk => cogPixel_eq hsize hv hh (by omega) hw
  rw [Finset.sum_range_zero, Nat.zero_add] at hloop
  have hnext : columnsAt x image w v w = columnsAt x image w (v + 1) 0 :=
    Row.ofContents_congr fun j hj => by rw [if_pos hj, if_neg (Nat.not_lt_zero j)]
  unfold cogRow sumsAt
  dsimp only
  rw [hloop, Option.bind_eq_bind, Option.bind_some]
  dsimp only
  rw [Row.assign_ofContents hvw, Option.bind_eq_bind, Option.bind_some, hnext]
  refine congrArg some (congrArg (fun r => CogSums.mk r _) (Row.ofContents_congr fun i _ => ?_))
  by_cases heq : i = v
  · subst heq
    rw [Function.update_self, if_pos (Nat.lt_succ_self i)]
  · rw [Function.update_of_ne heq]
    by_cases hlt : i < v
    · rw [if_pos hlt, if_pos (by omega)]
    · rw [if_neg hlt, if_neg (by omega)]

/-! ## Images that are not square -/

/-- A loop that came to its end was in each of its rounds, in a state that `P` holds of. -/
theorem exists_round {σ : Type} {body : Nat → σ → Option σ} {P : σ → Prop}
    (hP : ∀ i s s', P s → body i s = some s' → P s') : ∀ {n i : Nat} {s out : σ}, P s →
      rounds body n i s = some out → P out ∧ ∀ k, i ≤ k → k < i + n → ∃ s₁ s₂, P s₁ ∧
        body k s₁ = some s₂ := by
  intro n
  induction n with
  | zero =>
      intro i s out hs hrun
      obtain rfl : s = out := Option.some.inj hrun
      exact ⟨hs, fun k hlo hhi => by omega⟩
  | succ n ih =>
      intro i s out hs hrun
      rw [rounds] at hrun
      obtain ⟨s', hbody, hrest⟩ := Option.bind_eq_some_iff.mp hrun
      obtain ⟨hout, hrounds⟩ := ih (hP i s s' hs hbody) hrest
      refine ⟨hout, fun k hlo hhi => ?_⟩
      rcases Nat.eq_or_lt_of_le hlo with rfl | hlt
      · exact ⟨s, s', hs, hbody⟩
      · exact hrounds k hlt (by omega)

/-- A row keeps its length, and is only assigned inside. -/
theorem lt_of_assign {r r' : Row Int} {i : Nat} {a : Int} (hassign : r.assign i a = some r') :
    i < r.length := by
  by_contra hge
  rw [Row.assign_eq_none (by omega)] at hassign
  cases hassign

theorem exists_of_cogRow {s s' : CogSums} (hrow : cogRow x image w v s = some s') :
    ∃ rs : Int, s.rowsums.assign v rs = some s'.rowsums := by
  unfold cogRow at hrow
  obtain ⟨⟨columnsums, rs⟩, -, hrow⟩ := Option.bind_eq_some_iff.mp hrow
  obtain ⟨rowsums, hassign, hrow⟩ := Option.bind_eq_some_iff.mp hrow
  refine ⟨rs, ?_⟩
  rw [hassign, ← Option.some.inj hrow]

theorem eq_of_pdpCogPerform {s : CogSums} (hrun : pdpCogPerform x w h image = some s) : w = h := by
  unfold pdpCogPerform at hrun
  obtain ⟨columnsums, hcleared, hrun⟩ := Option.bind_eq_some_iff.mp hrun
  have hcolumns := (@exists_round _ _ (fun c : Row Int => c.length = h)
    (fun i c c' hlen hbody => (Row.length_of_assign hbody).trans hlen) w 0 _ _
    List.length_replicate hcleared).2
  have hrows := (@exists_round _ _ (fun s : CogSums => s.rowsums.length = w)
    (fun i s s' hlen hbody => by
      obtain ⟨rs, hassign⟩ := exists_of_cogRow hbody
      exact (Row.length_of_assign hassign).trans hlen) h 0 ⟨List.replicate w none, columnsums⟩ s
    List.length_replicate hrun).2
  refine Nat.le_antisymm ?_ ?_
  · by_contra hlt
    obtain ⟨c, c', hlen, hassign⟩ := hcolumns h (Nat.zero_le h) (by omega)
    have := lt_of_assign hassign
    omega
  · by_contra hlt
    obtain ⟨s₁, s₂, hlen, hbody⟩ := hrows w (Nat.zero_le w) (by omega)
    obtain ⟨rs, hassign⟩ := exists_of_cogRow hbody
    have := lt_of_assign hassign
    omega

theorem cogWorks_square (hlen : image.length = w * w)
    (hsize : 2 * (w * w) + pdpHeaderSize < 2 ^ 31) : CogWorks x w w image := by
  have hw : w < 2 ^ 15 := by
    by_contra hge
    have hle : 2 ^ 15 * 2 ^ 15 ≤ w * w := Nat.mul_le_mul (by omega) (by omega)
    omega
  have hclear := @rounds_eq _ (fun h (c : Row Int) => c.assign h 0)
    (fun k => Row.ofContents w fun j => if j < k then some 0 else none) w 0 fun k _ hk => by
      rw [Row.assign_ofContents (by omega), Option.some.injEq]
      refine Row.ofContents_congr fun j _ => ?_
      by_cases heq : j = k
      · subst heq
        rw [Function.update_self, if_pos (Nat.lt_succ_self j)]
      · rw [Function.update_of_ne heq]
        by_cases hlt : j < k
        · rw [if_pos hlt, if_pos (by omega)]
        · rw [if_neg hlt, if_neg (by omega)]
  have hstart : (Row.ofContents w fun j => if j < 0 then some (0 : Int) else none) =
      (List.replicate w none : Row Int) := by
    rw [Row.replicate_none]
    exact Row.ofContents_congr fun j _ => if_neg (Nat.not_lt_zero j)
  have hcleared : (Row.ofContents w fun j => if j < 0 + w then some (0 : Int) else none) =
      columnsAt x image w 0 0 := Row.ofContents_congr fun j hj => by
    rw [if_pos (by omega), if_neg (Nat.not_lt_zero j), Finset.sum_range_zero]
  have hrows := @rounds_eq _ (cogRow x image w) (sumsAt x image w) w 0
    fun v _ hv => cogRow_eq hlen (by omega) hw (by omega) hw
  have hfirst : sumsAt x image w 0 = ⟨List.replicate w none, columnsAt x image w 0 0⟩ := by
    unfold sumsAt
    rw [Row.replicate_none]
    exact congrArg (fun r => CogSums.mk r _)
      (Row.ofContents_congr fun i _ => if_neg (Nat.not_lt_zero i))
  rw [hstart, hcleared] at hclear
  rw [Nat.zero_add, hfirst] at hrows
  have hsums : SumsUp x image w w (sumsAt x image w w) := by
    refine ⟨fun v hv => ?_, fun k hk => ?_⟩
    · rw [sumsAt, Row.fetch_ofContents hv, if_pos hv]
    · rw [sumsAt, columnsAt, Row.fetch_ofContents hk, if_neg (Nat.not_lt_zero k)]
  refine ⟨sumsAt x image w w, ?_, hsums, ?_⟩
  · unfold pdpCogPerform
    dsimp only
    rw [hclear, Option.bind_eq_bind, Option.bind_some]
    exact hrows
  · have hleft : ∀ v ∈ Finset.range w, ((sumsAt x image w w).rowsums.fetch v).getD 0 =
        ∑ k ∈ Finset.range w, cogAt x image w v k := fun v hv => by
      rw [hsums.1 v (Finset.mem_range.mp hv), Option.getD_some]
    have hright : ∀ k ∈ Finset.range w, ((sumsAt x image w w).columnsums.fetch k).getD 0 =
        ∑ v ∈ Finset.range w, cogAt x image w v k := fun k hk => by
      rw [hsums.2 k (Finset.mem_range.mp hk), Option.getD_some]
    rw [Finset.sum_congr rfl hleft, Finset.sum_congr rfl hright]
    exact Finset.sum_comm

/-- The routine works for the square images. -/
theorem cogWorks_iff (x : Cog) (hlen : image.length = w * h)
    (hsize : 2 * (w * h) + pdpHeaderSize < 2 ^ 31) : CogWorks x w h image ↔ w = h := by
  constructor
  · rintro ⟨s, hrun, -, -⟩
    exact eq_of_pdpCogPerform hrun
  · rintro rfl
    exact cogWorks_square hlen hsize

theorem cogWorks_iff_2x2 : CogWorks ⟨0, true⟩ 2 2 [1, 2, 3, 4] ↔ 2 = 2 :=
  cogWorks_iff ⟨0, true⟩ rfl (by decide)

/-- An image of two rows with one pixel each: the sum of the second row has no place. -/
theorem not_cogWorks_1x2 : ¬ CogWorks ⟨0, false⟩ 1 2 [5, 7] := by
  rintro ⟨s, hrun, -, -⟩
  have hnone : pdpCogPerform ⟨0, false⟩ 1 2 [5, 7] = none := by decide
  rw [hnone] at hrun
  cases hrun

end Loops

end PureDataPacket
