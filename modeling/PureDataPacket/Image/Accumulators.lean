/-
# `PureDataPacket.Image.Accumulators` — sums of products in 32 bits

The mixer and the colour rotation add two products, the convolution three.  The factors are
a pixel and a fixed-point number that `float2fixed` gives, so a product is at most
`0x8000 * 0x7fff`, and two of them are an `s32`, with little room left.  Three of them need not
be.

The routines here check every product and every sum: `none` says that one is no `s32`, or
that a pixel outside of the image was read.

| | |
| :-- | :-- |
| `MixExact` | what is owed by the mixer |
| `ConvFits` | every sum of three pixels, weighted with the coefficients, is an `s32` |
| `sums_checkedConvSum` | where the extreme sums fit, all do |
| `convFits_of_exact` | no other coefficients are exact for every image |
-/
import PureDataPacket.Image.Convolution
import PureDataPacket.Image.Filtering
import PureDataPacket.Image.Scaling

namespace PureDataPacket

namespace Portable

/-! ## The routines -/

/-- `a*d + b*e`. -/
def sum2 (a d b e : Int) : Option Int := do
  let x ← intMul a d
  let y ← intMul b e
  checkedS32 (x + y)

/-- One round of the loop of `pdp_imageproc_mix_process` that mixes. -/
def mixStep (x : Mix) (i : Nat) (im : Images) : Option Images := do
  let a ← im.image[i]?
  let b ← im.second[i]?
  let a ← sum2 a.toInt x.d0 b.toInt x.d1
  return { im with image := im.image.set i (convStored a) }

/-- `pdp_imageproc_mix_process`. -/
def checkedMixProcess (x : Mix) (width height : Nat) (im : Images) : Option Images :=
  if x.d0 = 0 then rounds (pixelStep fun _ b => b) (u32 (width * height)) 0 im
  else rounds (mixStep x) (u32 (width * height)) 0 im

/-- The matrix of a colour rotation: `s32 d[4]`. -/
structure Crot2d where
  d0 : Int
  d1 : Int
  d2 : Int
  d3 : Int

/-- `pdp_imageproc_crot2d_setmatrix`. -/
def pdpImageprocCrot2dSetmatrix (matrix : Nat → ℚ) : Crot2d :=
  ⟨float2fixed (matrix 0), float2fixed (matrix 1), float2fixed (matrix 2), float2fixed (matrix 3)⟩

/-- One round of the loop of `pdp_imageproc_crot2d_process`; the second plane begins at `n`. -/
def crot2dStep (x : Crot2d) (n i : Nat) (image : List S16) : Option (List S16) := do
  let j := u32 (n + i)
  let c1 ← image[i]?
  let c2 ← image[j]?
  let a1 ← sum2 x.d0 c1.toInt x.d2 c2.toInt
  let a2 ← sum2 x.d1 c1.toInt x.d3 c2.toInt
  return (image.set i (convStored a1)).set j (convStored a2)

/-- `pdp_imageproc_crot2d_process`. -/
def pdpImageprocCrot2dProcess (x : Crot2d) (image : List S16) (width height : Nat) :
    Option (List S16) :=
  rounds (crot2dStep x (u32 (width * height))) (u32 (width * height)) 0 image

/-- `a*d[0] + b*d[1] + c*d[2]`. -/
def checkedConvSum (d : Conv) (a b c : Int) : Option Int := do
  let ab ← sum2 a d.min1 b d.zero
  let z ← intMul c d.plus1
  checkedS32 (ab + z)

/-- The coefficients and the border value are those of the setters. -/
def setConv (z : Conv) (min1 zero plus1 border : ℚ) : Conv :=
  pdpImageprocConvSetbordercolor (pdpImageprocConvSetplus1 (pdpImageprocConvSetzero
    (pdpImageprocConvSetmin1 z min1) zero) plus1) border

/-- The gains are those of the setters. -/
def setMix (x : Mix) (left right : ℚ) : Mix :=
  pdpImageprocMixSetrightgain (pdpImageprocMixSetleftgain x left) right

/-! ## Exact sums -/

/-- The planes after the first `k` rounds, from exact sums. -/
def rotated (x : Crot2d) (n k : Nat) (image : List S16) : List S16 :=
  image.mapIdx fun p c =>
    if p < k then convStored (x.d0 * c.toInt + x.d2 * (image.getD (n + p) 0).toInt)
    else if n ≤ p ∧ p < n + k then
      convStored (x.d1 * (image.getD (p - n) 0).toInt + x.d3 * c.toInt)
    else c

/-- No product and no sum overflows, and every pixel is the exact sum, shifted and clamped. -/
def MixExact (x : Mix) : Prop :=
  ∀ (w h : Nat) (im : Images), u32 (w * h) ≤ im.image.length → u32 (w * h) ≤ im.second.length →
    checkedMixProcess x w h im = some (processed (mixPixel x) im (u32 (w * h)))

def Crot2dExact (x : Crot2d) : Prop :=
  ∀ (w h : Nat) (image : List S16), image.length = 2 * (w * h) → 2 * image.length < 2 ^ 32 →
    pdpImageprocCrot2dProcess x image w h = some (rotated x (w * h) (w * h) image)

def ConvExact (d : Conv) : Prop :=
  ∀ (w h : Nat) (m : Pixels), 2 ≤ w → 2 ≤ h → 2 * (w * h) < 2 ^ 32 →
    (d.orientation = PDP_IMAGEPROC_CONV_HORIZONTAL → convProcess (checkedConvSum d) d w h m =
      some (((rows w h).pass (convMap (convSum d) d.border))^[d.nbpasses] m)) ∧
    (d.orientation = PDP_IMAGEPROC_CONV_VERTICAL → convProcess (checkedConvSum d) d w h m =
      some (((columns w h).pass (convMap (convSum d) d.border))^[d.nbpasses] m))

/-- The largest product of a coefficient and a pixel. -/
def highest (c : Int) : Int := max (0x7fff * c) (-0x8000 * c)

def lowest (c : Int) : Int := min (0x7fff * c) (-0x8000 * c)

/-- Every sum of three pixels, weighted with the coefficients, is an `s32`. -/
def ConvFits (d : Conv) : Prop :=
  IsInt (highest d.min1 + highest d.zero + highest d.plus1) ∧
    IsInt (lowest d.min1 + lowest d.zero + lowest d.plus1)

/-! ## Bounds -/

section Bounds

variable {a b c d e : Int}

/-- The values of an `s16`. -/
def IsPixel (a : Int) : Prop := -0x8000 ≤ a ∧ a ≤ 0x7fff

/-- The values of `float2fixed`. -/
def IsFixed (d : Int) : Prop := -0x7fff ≤ d ∧ d ≤ 0x7fff

theorem isPixel_toInt (a : S16) : IsPixel a.toInt := by
  have hlo := BitVec.le_toInt a
  have hhi := BitVec.toInt_lt (x := a)
  constructor <;> omega

theorem isPixel_sample {border : Int} (hborder : IsFixed border) (a : Option S16) :
    IsPixel (sample border a) := by
  cases a with
  | none => exact ⟨by have := hborder.1; show _ ≤ border; omega, hborder.2⟩
  | some a => exact isPixel_toInt a

/-- A product is one of the two extremes, or between them. -/
theorem mul_between (ha : IsPixel a) (c : Int) : lowest c ≤ a * c ∧ a * c ≤ highest c := by
  obtain ⟨hlo, hhi⟩ := ha
  unfold lowest highest
  rcases Int.le_total 0 c with hc | hc
  · have hupper := Int.mul_le_mul_of_nonneg_right hhi hc
    have hlower := Int.mul_le_mul_of_nonneg_right hlo hc
    omega
  · have hupper := Int.mul_le_mul_of_nonpos_right hhi hc
    have hlower := Int.mul_le_mul_of_nonpos_right hlo hc
    omega

theorem mul_bounds (ha : IsPixel a) (hd : IsFixed d) :
    -(0x8000 * 0x7fff) ≤ a * d ∧ a * d ≤ 0x8000 * 0x7fff := by
  obtain ⟨hlo, hhi⟩ := hd
  obtain ⟨hlower, hupper⟩ := mul_between ha d
  unfold lowest at hlower
  unfold highest at hupper
  omega

theorem sum2_eq (ha : IsPixel a) (hd : IsFixed d) (hb : IsPixel b) (he : IsFixed e) :
    sum2 a d b e = some (a * d + b * e) := by
  obtain ⟨hlox, hhix⟩ := mul_bounds ha hd
  obtain ⟨hloy, hhiy⟩ := mul_bounds hb he
  have hx : intMul a d = some (a * d) := intMul_eq_some.mpr ⟨⟨by omega, by omega⟩, rfl⟩
  have hy : intMul b e = some (b * e) := intMul_eq_some.mpr ⟨⟨by omega, by omega⟩, rfl⟩
  unfold sum2
  rw [hx, Option.bind_eq_bind, Option.bind_some, hy, Option.bind_some,
    checkedS32_eq ⟨by omega, by omega⟩]

theorem sum2_comm (a d b e : Int) : sum2 a d b e = sum2 d a e b := by
  unfold sum2 intMul
  rw [Int.mul_comm a d, Int.mul_comm b e]

end Bounds

/-! ## Mixing -/

section Mixing

variable {x : Mix} {im : Images}

theorem mixStep_eq (h0 : IsFixed x.d0) (h1 : IsFixed x.d1) (i : Nat) (im : Images) :
    mixStep x i im = pixelStep (mixPixel x) i im := by
  unfold mixStep pixelStep
  cases im.image[i]? with
  | none => rfl
  | some a =>
      cases im.second[i]? with
      | none => rfl
      | some b =>
          simp only [Option.bind_eq_bind, Option.bind_some]
          rw [sum2_eq (isPixel_toInt a) h0 (isPixel_toInt b) h1]
          rfl

theorem mixExact (h0 : IsFixed x.d0) (h1 : IsFixed x.d1) (hne : x.d0 ≠ 0) : MixExact x := by
  intro w h im himage hsecond
  have hstep : mixStep x = pixelStep (mixPixel x) := by
    funext i im
    exact mixStep_eq h0 h1 i im
  unfold checkedMixProcess
  rw [if_neg hne, hstep]
  exact rounds_pixelStep himage hsecond

end Mixing

/-! ## Rotating -/

section Rotating

variable {x : Crot2d} {n k : Nat} {image : List S16}

theorem getElem?_rotated {p : Nat} (hp : ¬ p < k) (hp' : ¬ (n ≤ p ∧ p < n + k)) :
    (rotated x n k image)[p]? = image[p]? := by
  unfold rotated
  simp only [List.getElem?_mapIdx, if_neg hp, if_neg hp', Option.map_id']

theorem rotated_zero : rotated x n 0 image = image := by
  apply List.ext_getElem?
  intro p
  exact getElem?_rotated (by omega) (by omega)

theorem set_rotated (hk : k < n) {c1 c2 : S16} (h1 : image[k]? = some c1)
    (h2 : image[n + k]? = some c2) :
    ((rotated x n k image).set k (convStored (x.d0 * c1.toInt + x.d2 * c2.toInt))).set (n + k)
      (convStored (x.d1 * c1.toInt + x.d3 * c2.toInt)) = rotated x n (k + 1) image := by
  have hd1 : image.getD k 0 = c1 := by rw [List.getD_eq_getElem?_getD, h1, Option.getD_some]
  have hd2 : image.getD (n + k) 0 = c2 := by rw [List.getD_eq_getElem?_getD, h2, Option.getD_some]
  have hlt : n + k < image.length := (List.getElem?_eq_some_iff.mp h2).1
  have hlength : (rotated x n k image).length = image.length := List.length_mapIdx
  apply List.ext_getElem?
  intro p
  rw [List.getElem?_set, List.getElem?_set]
  simp only [List.length_set, hlength]
  rcases eq_or_ne p (n + k) with rfl | hsecond
  · have hsub : n + k - n = k := by omega
    rw [if_pos rfl, if_pos hlt]
    unfold rotated
    rw [List.getElem?_mapIdx, h2, Option.map_some, if_neg (by omega), if_pos (by omega), hsub, hd1]
  · rw [if_neg hsecond.symm]
    rcases eq_or_ne p k with rfl | hfirst
    · rw [if_pos rfl, if_pos (by omega)]
      unfold rotated
      rw [List.getElem?_mapIdx, h1, Option.map_some, if_pos (by omega), hd2]
    · have hbelow : p < k + 1 ↔ p < k := by omega
      have habove : n ≤ p ∧ p < n + (k + 1) ↔ n ≤ p ∧ p < n + k := by omega
      rw [if_neg hfirst.symm]
      unfold rotated
      simp only [List.getElem?_mapIdx, hbelow, habove]

theorem crot2dExact (h0 : IsFixed x.d0) (h1 : IsFixed x.d1) (h2 : IsFixed x.d2)
    (h3 : IsFixed x.d3) : Crot2dExact x := by
  intro w h image hlength hbytes
  have hn : u32 (w * h) = w * h := u32_eq_self (by omega)
  have hloop : rounds (crot2dStep x (w * h)) (w * h) 0 (rotated x (w * h) 0 image) =
      some (rotated x (w * h) (0 + w * h) image) := by
    refine rounds_eq (P := fun k => rotated x (w * h) k image) fun k _ hk => ?_
    have hc1 := List.getElem?_eq_getElem (show k < image.length by omega)
    have hc2 := List.getElem?_eq_getElem (show w * h + k < image.length by omega)
    have hj : u32 (w * h + k) = w * h + k := u32_eq_self (by omega)
    unfold crot2dStep
    simp only [hj]
    rw [getElem?_rotated (by omega) (by omega), hc1, Option.bind_eq_bind, Option.bind_some,
      getElem?_rotated (by omega) (by omega), hc2, Option.bind_some,
      sum2_comm, sum2_eq (isPixel_toInt _) h0 (isPixel_toInt _) h2, Option.bind_eq_bind,
      Option.bind_some, sum2_comm, sum2_eq (isPixel_toInt _) h1 (isPixel_toInt _) h3,
      Option.bind_some, ← set_rotated (x := x) (by omega) hc1 hc2]
    simp only [Int.mul_comm]
    rfl
  rw [rotated_zero, Nat.zero_add] at hloop
  unfold pdpImageprocCrot2dProcess
  rw [hn, hloop]

end Rotating

/-! ## Convolving -/

section Convolving

variable {d : Conv}

theorem sums_checkedConvSum (h0 : IsFixed d.min1) (h1 : IsFixed d.zero) (h2 : IsFixed d.plus1)
    (hborder : IsFixed d.border) (hfits : ConvFits d) :
    Sums (checkedConvSum d) (convSum d) d.border := by
  intro a b c
  have ha := isPixel_sample hborder a
  have hc := isPixel_sample hborder c
  obtain ⟨⟨-, hhigh⟩, hlow, -⟩ := hfits
  obtain ⟨hloa, hhia⟩ := mul_between ha d.min1
  obtain ⟨hlob, hhib⟩ := mul_between (isPixel_toInt b) d.zero
  obtain ⟨hloc, hhic⟩ := mul_between hc d.plus1
  obtain ⟨hloz, hhiz⟩ := mul_bounds hc h2
  have hz : intMul (sample d.border c) d.plus1 = some (sample d.border c * d.plus1) :=
    intMul_eq_some.mpr ⟨⟨by omega, by omega⟩, rfl⟩
  unfold checkedConvSum convSum
  rw [sum2_eq ha h0 (isPixel_toInt b) h1, Option.bind_eq_bind, Option.bind_some, hz,
    Option.bind_some, checkedS32_eq ⟨by omega, by omega⟩]

theorem convExact (h0 : IsFixed d.min1) (h1 : IsFixed d.zero) (h2 : IsFixed d.plus1)
    (hborder : IsFixed d.border) (hfits : ConvFits d) : ConvExact d := by
  intro w h m hw hh hfit
  exact convProcess_eq (sums_checkedConvSum h0 h1 h2 hborder hfits) hw hh hfit m

/-- The first three of six pixels. -/
def threePixels (x0 x1 x2 : S16) : Pixels := fun p => if p = 0 then x0 else if p = 1 then x1 else x2

/-- A row of three pixels whose sum is no `s32`. -/
theorem convProcess_none {sum : Int → Int → Int → Option Int} {x0 x1 x2 : S16}
    (horientation : d.orientation = PDP_IMAGEPROC_CONV_HORIZONTAL) (hpasses : 0 < d.nbpasses)
    (hsum : sum x0.toInt x1.toInt x2.toInt = none) :
    convProcess sum d 3 2 (threePixels x0 x1 x2) = none := by
  obtain ⟨n, hn⟩ : ∃ n, d.nbpasses = n + 1 := ⟨d.nbpasses - 1, by omega⟩
  have hround : convRound sum (3 * 2) 1 ⟨threePixels x0 x1 x2, 0, d.border, x0.toInt, x1.toInt⟩ =
      (sum d.border x0.toInt x1.toInt).map fun r =>
        ⟨Function.update (threePixels x0 x1 x2) 0 (convStored r), 1, x0.toInt, x1.toInt,
          x2.toInt⟩ := by
    unfold convRound
    cases sum d.border x0.toInt x1.toInt <;> rfl
  have htail : ∀ m,
      convTail sum d.border (3 * 2) 1 ⟨m, 1, x0.toInt, x1.toInt, x2.toInt⟩ = none := by
    intro m
    unfold convTail
    simp only [hsum]
    rfl
  have hscanline : pdpImageprocConvScanline sum d.border (3 * 2) (threePixels x0 x1 x2) 0 3 1 =
      none := by
    show (rounds (fun _ => convRound sum (3 * 2) 1) 1 0
      ⟨threePixels x0 x1 x2, 0, d.border, x0.toInt, x1.toInt⟩).bind
        (convTail sum d.border (3 * 2) 1) = none
    unfold rounds
    rw [hround]
    cases sum d.border x0.toInt x1.toInt with
    | none => rfl
    | some r => exact htail _
  have hline : convPasses sum d (3 * 2) 3 1 (threePixels x0 x1 x2) 0 = none := by
    unfold convPasses
    rw [hn, rounds, hscanline]
    rfl
  have hstarts : counter 0 (u32 (3 * 2)) (3 : Nat) = [0, 3] := by decide
  unfold convProcess
  rw [if_pos horientation, hstarts, List.foldlM_cons, hline]
  rfl

/-- The pixel that makes the largest product, or the smallest one. -/
def extreme (top : Bool) (c : Int) : S16 := if top = decide (0 ≤ c) then 0x7fff else 0x8000

theorem extreme_mul (top : Bool) (c : Int) :
    (extreme top c).toInt * c = if top then highest c else lowest c := by
  have hwhite : (0x7fff : S16).toInt = 0x7fff := by decide
  have hblack : (0x8000 : S16).toInt = -0x8000 := by decide
  unfold extreme highest lowest
  cases top with
  | false =>
      by_cases hc : 0 ≤ c
      · rw [decide_eq_true hc, if_neg (by decide), hblack, if_neg (by decide)]
        omega
      · rw [decide_eq_false hc, if_pos rfl, hwhite, if_neg (by decide)]
        omega
  | true =>
      by_cases hc : 0 ≤ c
      · rw [decide_eq_true hc, if_pos rfl, hwhite, if_pos rfl]
        omega
      · rw [decide_eq_false hc, if_neg (by decide), hblack, if_pos rfl]
        omega

theorem checkedConvSum_none {a b c : Int} (h : ¬ IsInt (convSum d a b c)) :
    checkedConvSum d a b c = none := by
  unfold checkedConvSum
  rw [Option.bind_eq_bind, Option.bind_eq_none_iff]
  intro ab hab
  rw [Option.bind_eq_none_iff]
  intro z hz
  have hsum : ab = a * d.min1 + b * d.zero := by
    unfold sum2 checkedS32 at hab
    simp only [Option.bind_eq_bind, Option.bind_eq_some_iff, intMul_eq_some,
      Option.ite_none_right_eq_some, Option.some.injEq] at hab
    obtain ⟨x, ⟨-, rfl⟩, y, ⟨-, rfl⟩, -, hab⟩ := hab
    exact hab.symm
  obtain ⟨-, rfl⟩ := intMul_eq_some.mp hz
  subst hsum
  exact if_neg h

theorem convFits_of_exact (horientation : d.orientation = PDP_IMAGEPROC_CONV_HORIZONTAL)
    (hpasses : 0 < d.nbpasses) (hexact : ConvExact d) : ConvFits d := by
  have hbound : ∀ top, IsInt (convSum d (extreme top d.min1).toInt (extreme top d.zero).toInt
      (extreme top d.plus1).toInt) := by
    intro top
    by_contra hnot
    have hnone := convProcess_none horientation hpasses (checkedConvSum_none hnot)
    have hsome := hnone.symm.trans
      ((hexact 3 2 _ (by decide) (by decide) (by decide)).1 horientation)
    cases hsome
  have hhigh := hbound true
  have hlow := hbound false
  unfold convSum at hhigh hlow
  simp only [extreme_mul] at hhigh hlow
  exact ⟨hhigh, hlow⟩

end Convolving

/-! ## All coefficients of the setters -/

/-- The sums of two products are exact for all of them; the mixer does not take them without a left
gain, and copies the second image.  Those of three products are where the extreme ones are. -/
theorem accumulators_exact (x : Mix) (left right : ℚ) (matrix : Nat → ℚ) (z : Conv)
    (min1 zero plus1 border : ℚ) :
    ((setMix x left right).d0 ≠ 0 → MixExact (setMix x left right)) ∧
    ((setMix x left right).d0 = 0 → ∀ (w h : Nat) (im : Images),
      u32 (w * h) ≤ im.image.length → u32 (w * h) ≤ im.second.length →
        checkedMixProcess (setMix x left right) w h im =
          some (processed (fun _ b => b) im (u32 (w * h)))) ∧
    Crot2dExact (pdpImageprocCrot2dSetmatrix matrix) ∧
    (ConvFits (setConv z min1 zero plus1 border) →
      ConvExact (setConv z min1 zero plus1 border)) := by
  refine ⟨mixExact (float2fixed_mem left) (float2fixed_mem right), ?_, ?_, ?_⟩
  · intro hzero w h im himage hsecond
    unfold checkedMixProcess
    rw [if_pos hzero]
    exact rounds_pixelStep himage hsecond
  · exact crot2dExact (float2fixed_mem _) (float2fixed_mem _) (float2fixed_mem _)
      (float2fixed_mem _)
  · exact convExact (float2fixed_mem min1) (float2fixed_mem zero) (float2fixed_mem plus1)
      (float2fixed_mem border)

/-- Full gains, and a convolution that leaves the image as it is, up to the rounding. -/
theorem accumulators_exact_full :
    MixExact (setMix ⟨0, 0⟩ 1 1) ∧ (∀ (w h : Nat) (im : Images),
      u32 (w * h) ≤ im.image.length → u32 (w * h) ≤ im.second.length →
        checkedMixProcess (setMix ⟨0, 0⟩ 0 1) w h im =
          some (processed (fun _ b => b) im (u32 (w * h)))) ∧
    ConvExact (setConv ⟨0, 0, 0, 0, 0, 1⟩ 0 1 0 0) := by
  have hone : (setMix ⟨0, 0⟩ 1 1).d0 ≠ 0 := by
    show float2fixed 1 ≠ 0
    rw [float2fixed_one]
    decide
  have hfits : ConvFits (setConv ⟨0, 0, 0, 0, 0, 1⟩ 0 1 0 0) := by
    show IsInt (highest (float2fixed 0) + highest (float2fixed 1) + highest (float2fixed 0)) ∧
      IsInt (lowest (float2fixed 0) + lowest (float2fixed 1) + lowest (float2fixed 0))
    rw [float2fixed_zero, float2fixed_one]
    decide
  exact ⟨(accumulators_exact ⟨0, 0⟩ 1 1 (fun _ => 0) ⟨0, 0, 0, 0, 0, 1⟩ 0 1 0 0).1 hone,
    (accumulators_exact ⟨0, 0⟩ 0 1 (fun _ => 0) ⟨0, 0, 0, 0, 0, 1⟩ 0 1 0 0).2.1 float2fixed_zero,
    (accumulators_exact ⟨0, 0⟩ 1 1 (fun _ => 0) ⟨0, 0, 0, 0, 0, 1⟩ 0 1 0 0).2.2.2 hfits⟩

/-- Three white pixels with full weights: their sum is no `s32`, and what is stored for the middle
one is black.  A mixer without gains copies the second image, and does not clear the first. -/
theorem accumulators_overflow :
    ¬ ConvExact (setConv ⟨0, 0, 0, 0, 0, 1⟩ 1 1 1 0) ∧
    (pdpImageprocConvProcess (setConv ⟨0, 0, 0, 0, 0, 1⟩ 1 1 1 0) 3 2
      (threePixels 0x7fff 0x7fff 0x7fff)).map (fun m => m 1) = some (toS16 (-0x7fff)) ∧
    ¬ MixExact (setMix ⟨0, 0⟩ 0 0) := by
  have hset : setConv ⟨0, 0, 0, 0, 0, 1⟩ 1 1 1 0 = ⟨0x7fff, 0x7fff, 0x7fff, 0, 0, 1⟩ := by
    show (⟨float2fixed 1, float2fixed 1, float2fixed 1, float2fixed 0, 0, 1⟩ : Conv) = _
    rw [float2fixed_one, float2fixed_zero]
  have hmix : setMix ⟨0, 0⟩ 0 0 = ⟨0, 0⟩ := by
    show (⟨float2fixed 0, float2fixed 0⟩ : Mix) = _
    rw [float2fixed_zero]
  rw [hset, hmix]
  refine ⟨fun hexact => ?_, by decide, fun hexact => ?_⟩
  · have hfits := convFits_of_exact rfl (by decide) hexact
    exact absurd hfits.1 (by decide)
  · have hone := hexact 1 1 ⟨[0], some [1]⟩ (by decide) (by decide)
    exact absurd hone (by decide)

end Portable

end PureDataPacket
