/-
# `PureDataPacket.Image.Scaling` — bilinear scaling, with all of its arithmetic

`pdp_resample_bilin` and `pdp_resample_scale_bilin` of `pdp_resample.c`, and the
`pdp_resample_bilin` of `pdp_imageproc_portable.c`.  Every `s32` is checked where it is
computed: `none` says that a value left its range, or that a pixel outside of the source was
read.

The virtual coordinates add up to less than `2 ^ 30`, a coordinate times a dimension stays below
`2 ^ 31`, and a pixel times a weight is at least `-2 ^ 31`: none of the bounds has room to spare.

| | |
| :-- | :-- |
| `blend_eq` | no step of a blend of pixels leaves the range of `int` |
| `Between` | the value is between the smallest and the largest of the pixels |
| `scaled_lt` | a coordinate is left of the last pixel |
| `resampleBilin_spec` | one pixel |
| `scaleOf_eq` | the scale of an axis |
-/
import Mathlib.Algebra.Group.Action.Defs
import Mathlib.Data.List.GetD
import PureDataPacket.Image.Agreement
import PureDataPacket.Image.Resample

namespace PureDataPacket

/-! ## The routines -/

/-- An `s32` that is computed. -/
def checkedS32 (n : Int) : Option Int := if IsInt n then some n else none

/-- `(s32)(image[i])`. -/
def fetchPixel (image : List S16) (i : Int) : Option Int :=
  if 0 ≤ i then image[i.toNat]?.map BitVec.toInt else none

/-- `((0x10000 - frac) * a + frac * b) >> 16`. -/
def blend (frac a b : Int) : Option Int := do
  let f ← checkedS32 (0x10000 - frac)
  let x ← checkedS32 (f * a)
  let y ← checkedS32 (frac * b)
  let sum ← checkedS32 (x + y)
  pure (sum / 2 ^ 16)

namespace Portable

/-- `pdp_resample_bilin` of `pdp_imageproc_portable.c`. -/
def pdpResampleBilin (image : List S16) (width height virtX virtY : Int) : Option Int := do
  let width1 ← checkedS32 (width - 1)
  let height1 ← checkedS32 (height - 1)
  let fpX ← checkedS32 (virtX * width1)
  let fpY ← checkedS32 (virtY * height1)
  let fracX := fpX % 2 ^ 16
  let fracY := fpY % 2 ^ 16
  let rows ← checkedS32 (fpY / 2 ^ 16 * width)
  let offset ← checkedS32 (fpX / 2 ^ 16 + rows)
  let r₁ ← blend fracX (← fetchPixel image offset) (← fetchPixel image (offset + 1))
  let r₂ ← blend fracX (← fetchPixel image (offset + width))
    (← fetchPixel image (offset + width + 1))
  blend fracY r₁ r₂

end Portable

namespace Scaling

/-- `pdp_resample_bilin` of `pdp_resample.c`, which takes the lower half of the coordinates. -/
def pdpResampleBilin (image : List S16) (width height virtX virtY : Int) : Option Int :=
  Portable.pdpResampleBilin image width height (virtX % 2 ^ 16) (virtY % 2 ^ 16)

/-- The inner loop of `pdp_resample_scale_bilin`: the virtual coordinate, and what has been
written so far. -/
def scaleRow (srcImage : List S16) (srcW srcH dstW scaleX virtY : Int) (out : List S16) :
    Option (Int × List S16) :=
  rounds (fun _ (virtX, out) => do
    let pixel ← pdpResampleBilin srcImage srcW srcH (virtX / 2 ^ 14) (virtY / 2 ^ 14)
    let virtX ← checkedS32 (virtX + scaleX)
    pure (virtX, out ++ [toS16 pixel])) dstW.toNat 0 (0, out)

/-- `pdp_resample_scale_bilin`: what it writes to `*dst_image++`, in order. -/
def pdpResampleScaleBilin (srcImage : List S16) (srcW srcH dstW dstH : Int) :
    Option (List S16) := do
  let scaleX ← scaleOf dstW
  let scaleY ← scaleOf dstH
  let (_, out) ← rounds (fun _ (virtY, out) => do
    let (_, out) ← scaleRow srcImage srcW srcH dstW scaleX virtY out
    let virtY ← checkedS32 (virtY + scaleY)
    pure (virtY, out)) dstH.toNat 0 (0, [])
  pure out

end Scaling

/-! ## Between two pixels -/

section Blend

variable {f a b lo hi : Int}

theorem checkedS32_eq {n : Int} (h : IsInt n) : checkedS32 n = some n := if_pos h

theorem blend_bounds (h0 : 0 ≤ f) (h1 : f ≤ 2 ^ 16) (ha : lo ≤ a ∧ a ≤ hi) (hb : lo ≤ b ∧ b ≤ hi) :
    lo ≤ ((0x10000 - f) * a + f * b) / 2 ^ 16 ∧ ((0x10000 - f) * a + f * b) / 2 ^ 16 ≤ hi := by
  have hlo : 0 ≤ (0x10000 - f) * (a - lo) + f * (b - lo) :=
    Int.add_nonneg (Int.mul_nonneg (by omega) (by omega)) (Int.mul_nonneg h0 (by omega))
  have hhi : 0 ≤ (0x10000 - f) * (hi - a) + f * (hi - b) :=
    Int.add_nonneg (Int.mul_nonneg (by omega) (by omega)) (Int.mul_nonneg h0 (by omega))
  have hlo' : (0x10000 - f) * (a - lo) + f * (b - lo) =
      (0x10000 - f) * a + f * b - 0x10000 * lo := by ring
  have hhi' : (0x10000 - f) * (hi - a) + f * (hi - b) =
      0x10000 * hi - ((0x10000 - f) * a + f * b) := by ring
  rw [hlo'] at hlo
  rw [hhi'] at hhi
  omega

/-- A weight times a pixel is an `int`. -/
theorem isInt_weight (h0 : 0 ≤ f) (ha : -2 ^ 15 ≤ a ∧ a < 2 ^ 15) :
    -(2 ^ 15 * f) ≤ f * a ∧ f * a ≤ 2 ^ 15 * f - f := by
  have hlo : 0 ≤ f * (a + 2 ^ 15) := Int.mul_nonneg h0 (by omega)
  have hhi : 0 ≤ f * (2 ^ 15 - 1 - a) := Int.mul_nonneg h0 (by omega)
  rw [show f * (a + 2 ^ 15) = f * a + 2 ^ 15 * f by ring] at hlo
  rw [show f * (2 ^ 15 - 1 - a) = 2 ^ 15 * f - f - f * a by ring] at hhi
  omega

theorem blend_eq (h0 : 0 ≤ f) (h1 : f ≤ 2 ^ 16) (ha : -2 ^ 15 ≤ a ∧ a < 2 ^ 15)
    (hb : -2 ^ 15 ≤ b ∧ b < 2 ^ 15) :
    blend f a b = some (((0x10000 - f) * a + f * b) / 2 ^ 16) := by
  have hx := isInt_weight (f := 0x10000 - f) (by omega) ha
  have hy := isInt_weight h0 hb
  unfold blend
  rw [checkedS32_eq ⟨by omega, by omega⟩, Option.bind_eq_bind, Option.bind_some,
    checkedS32_eq ⟨by omega, by omega⟩, Option.bind_some, checkedS32_eq ⟨by omega, by omega⟩,
    Option.bind_some, checkedS32_eq ⟨by omega, by omega⟩, Option.bind_some]
  rfl

end Blend

/-! ## Between four pixels -/

/-- The two by two pixels of a plane of width `w` from pixel `i` on. -/
def blockAt (image : List S16) (w i : Nat) : List S16 :=
  [image.getD i 0, image.getD (i + 1) 0, image.getD (i + w) 0, image.getD (i + w + 1) 0]

/-- The value is between the smallest and the largest of the pixels. -/
def Between (v : Int) (pixels : List S16) : Prop :=
  (∃ p ∈ pixels, p.toInt ≤ v) ∧ ∃ p ∈ pixels, v ≤ p.toInt

section Core

variable {image : List S16} {w h x y i : Nat} {v : Int} {l : List S16}

/-- The value is in every interval that the pixels are in. -/
theorem between_of_bounds
    (h : ∀ lo hi : Int, (∀ p ∈ l, lo ≤ p.toInt ∧ p.toInt ≤ hi) → lo ≤ v ∧ v ≤ hi) :
    Between v l := by
  have hbounds : ∀ p : S16, -2 ^ 15 ≤ p.toInt ∧ p.toInt < 2 ^ 15 :=
    fun p => ⟨p.le_toInt, p.toInt_lt⟩
  constructor
  · by_contra hnone
    push Not at hnone
    have := (h (v + 1) (2 ^ 15) fun p hp => ⟨hnone p hp, by have := hbounds p; omega⟩).1
    omega
  · by_contra hnone
    push Not at hnone
    have := (h (-2 ^ 15) (v - 1) fun p hp =>
      ⟨by have := hbounds p; omega, by have := hnone p hp; omega⟩).2
    omega

theorem Between.bounds (hv : Between v l) {lo hi : Int}
    (h : ∀ p ∈ l, lo ≤ p.toInt ∧ p.toInt ≤ hi) : lo ≤ v ∧ v ≤ hi := by
  obtain ⟨⟨p, hp, hpv⟩, q, hq, hqv⟩ := hv
  exact ⟨(h p hp).1.trans hpv, hqv.trans (h q hq).2⟩

theorem bind_checkedS32 {α : Type} {n : Int} {f : Int → Option α} (h : IsInt n) :
    checkedS32 n >>= f = f n := by
  rw [checkedS32_eq h]
  rfl

theorem fetchPixel_eq (hi : i < image.length) :
    fetchPixel image i = some (image.getD i 0).toInt := by
  unfold fetchPixel
  rw [if_pos (Int.natCast_nonneg i), Int.toNat_natCast, List.getElem?_eq_getElem hi,
    List.getD_eq_getElem _ _ hi]
  rfl

theorem bind_fetch {α : Type} {f : Int → Option α} (hi : i < image.length) :
    fetchPixel image i >>= f = f (image.getD i 0).toInt := by
  rw [fetchPixel_eq hi]
  rfl

/-- A coordinate is left of the last pixel, and its product with the dimension is an `int`. -/
theorem scaled_lt {n c : Nat} (hn : 2 ≤ n) (hn' : n ≤ 32769) (hc : c < 2 ^ 16) :
    c * (n - 1) < 2 ^ 31 ∧ c * (n - 1) / 2 ^ 16 + 1 < n := by
  have hle : c * (n - 1) ≤ (2 ^ 16 - 1) * (n - 1) := Nat.mul_le_mul_right _ (by omega)
  omega

/-- The pixel at the scaled coordinates, and those around it, are in the plane. -/
theorem offset_lt {ix iy : Nat} (hx : ix + 1 < w) (hy : iy + 1 < h) :
    ix + iy * w + w + 1 < w * h := by
  have hle : (iy + 2) * w ≤ h * w := Nat.mul_le_mul_right w (by omega)
  rw [Nat.add_mul, Nat.mul_comm h] at hle
  omega

theorem blends_spec {fx fy : Int} (hfx : 0 ≤ fx ∧ fx ≤ 2 ^ 16) (hfy : 0 ≤ fy ∧ fy ≤ 2 ^ 16)
    (p q r t : S16) : ∃ v, ((blend fx p.toInt q.toInt).bind fun r₁ =>
      (blend fx r.toInt t.toInt).bind fun r₂ => blend fy r₁ r₂) = some v ∧
        Between v [p, q, r, t] := by
  have hpixel : ∀ p : S16, -2 ^ 15 ≤ p.toInt ∧ p.toInt ≤ 2 ^ 15 - 1 := fun p => by
    have hlo := p.le_toInt
    have hhi := p.toInt_lt
    omega
  have hpixel' : ∀ p : S16, -2 ^ 15 ≤ p.toInt ∧ p.toInt < 2 ^ 15 :=
    fun p => ⟨p.le_toInt, p.toInt_lt⟩
  have hupper := blend_bounds hfx.1 hfx.2 (hpixel p) (hpixel q)
  have hlower := blend_bounds hfx.1 hfx.2 (hpixel r) (hpixel t)
  rw [blend_eq hfx.1 hfx.2 (hpixel' p) (hpixel' q), Option.bind_some,
    blend_eq hfx.1 hfx.2 (hpixel' r) (hpixel' t), Option.bind_some,
    blend_eq hfy.1 hfy.2 (by omega) (by omega)]
  refine ⟨_, rfl, between_of_bounds fun lo hi hl => ?_⟩
  simp only [List.forall_mem_cons, List.not_mem_nil, false_imp_iff, implies_true, and_true] at hl
  obtain ⟨hp, hq, hr, ht⟩ := hl
  exact blend_bounds hfy.1 hfy.2 (blend_bounds hfx.1 hfx.2 hp hq) (blend_bounds hfx.1 hfx.2 hr ht)

/-- `pdp_resample_bilin` reads the two by two pixels at the scaled coordinates, no value leaves
the range of `int`, and the result is between the pixels. -/
theorem resampleBilin_spec (hw : 2 ≤ w) (hw' : w ≤ 32769) (hh : 2 ≤ h) (hh' : h ≤ 32769)
    (hlen : image.length = w * h) (hx : x < 2 ^ 16) (hy : y < 2 ^ 16) :
    ∃ v, Portable.pdpResampleBilin image w h x y = some v ∧
      x * (w - 1) / 2 ^ 16 + y * (h - 1) / 2 ^ 16 * w + w + 1 < image.length ∧
      Between v (blockAt image w (x * (w - 1) / 2 ^ 16 + y * (h - 1) / 2 ^ 16 * w)) := by
  obtain ⟨hfx, hix⟩ := scaled_lt hw hw' hx
  obtain ⟨hfy, hiy⟩ := scaled_lt hh hh' hy
  have hin := hlen ▸ offset_lt hix hiy
  have hrows : y * (h - 1) / 2 ^ 16 * w ≤ 32767 * 32769 := Nat.mul_le_mul (by omega) hw'
  -- All values up to the offset are natural numbers.
  have hw1 : (w : Int) - 1 = (w - 1 : Nat) := by omega
  have hh1 : (h : Int) - 1 = (h - 1 : Nat) := by omega
  have hfpX : (x : Int) * (w - 1 : Nat) = (x * (w - 1) : Nat) := (Nat.cast_mul _ _).symm
  have hfpY : (y : Int) * (h - 1 : Nat) = (y * (h - 1) : Nat) := (Nat.cast_mul _ _).symm
  generalize x * (w - 1) = fpX at *
  generalize y * (h - 1) = fpY at *
  have hqx : (fpX : Int) / 2 ^ 16 = (fpX / 2 ^ 16 : Nat) := by omega
  have hqy : (fpY : Int) / 2 ^ 16 = (fpY / 2 ^ 16 : Nat) := by omega
  have hrow : ((fpY / 2 ^ 16 : Nat) : Int) * w = (fpY / 2 ^ 16 * w : Nat) :=
    (Nat.cast_mul _ _).symm
  have hoffset : ((fpX / 2 ^ 16 : Nat) : Int) + (fpY / 2 ^ 16 * w : Nat) =
      (fpX / 2 ^ 16 + fpY / 2 ^ 16 * w : Nat) := (Nat.cast_add _ _).symm
  have hint : ∀ n : Nat, n < 2 ^ 31 → IsInt n := fun n hn => ⟨by omega, by omega⟩
  obtain ⟨v, hv, hbetween⟩ := @blends_spec ((fpX : Int) % 2 ^ 16) ((fpY : Int) % 2 ^ 16)
    (by omega) (by omega) (image.getD (fpX / 2 ^ 16 + fpY / 2 ^ 16 * w) 0)
    (image.getD (fpX / 2 ^ 16 + fpY / 2 ^ 16 * w + 1) 0)
    (image.getD (fpX / 2 ^ 16 + fpY / 2 ^ 16 * w + w) 0)
    (image.getD (fpX / 2 ^ 16 + fpY / 2 ^ 16 * w + w + 1) 0)
  refine ⟨v, ?_, hin, hbetween⟩
  rw [← hv]
  unfold Portable.pdpResampleBilin
  rw [hw1, hh1, bind_checkedS32 (hint _ (by omega)), bind_checkedS32 (hint _ (by omega)), hfpX,
    hfpY, bind_checkedS32 (hint _ hfx), bind_checkedS32 (hint _ hfy), hqx, hqy, hrow,
    bind_checkedS32 (hint _ (by omega)), hoffset, bind_checkedS32 (hint _ (by omega))]
  generalize fpX / 2 ^ 16 + fpY / 2 ^ 16 * w = offset at *
  have hright : ∀ i : Nat, (i : Int) + 1 = (i + 1 : Nat) := fun i => (Nat.cast_succ i).symm
  have hbelow : (offset : Int) + (w : Int) = (offset + w : Nat) := (Nat.cast_add _ _).symm
  rw [hbelow, hright, hright, bind_fetch (by omega), bind_fetch (by omega)]
  refine congrArg (Option.bind _) (funext fun r₁ => ?_)
  rw [bind_fetch (by omega), bind_fetch (by omega), Option.bind_eq_bind]

end Core

/-! ## The loops -/

section Loops

variable {src : List S16} {sw sh dw dh sx sy i j : Nat}

/-- The scale of an axis, and the virtual coordinates on it. -/
theorem scaleOf_eq {n : Nat} (h0 : 1 ≤ n) (h1 : n ≤ 2 ^ 30) : ∃ scale : Nat,
    scaleOf n = some (scale : Int) ∧ ∀ i ≤ n, i * scale ≤ 2 ^ 30 ∧
      (i < n → i * scale < 2 ^ 30) := by
  refine ⟨2 ^ 30 / n, ?_, fun i hi => ?_⟩
  · unfold scaleOf
    rw [if_neg (by omega), Int.tdiv_eq_ediv_of_nonneg (by decide), Int.natCast_ediv]
    rfl
  · have hpos : 1 ≤ 2 ^ 30 / n := (Nat.one_le_div_iff (by omega)).mpr h1
    have hmul : n * (2 ^ 30 / n) ≤ 2 ^ 30 := Nat.mul_div_le (2 ^ 30) n
    refine ⟨(Nat.mul_le_mul_right _ hi).trans hmul, fun hlt => ?_⟩
    have hle := Nat.mul_le_mul_right (2 ^ 30 / n) (Nat.succ_le_of_lt hlt)
    rw [Nat.succ_mul] at hle
    omega

/-- The pixel at a place of the destination. -/
def scaledPixel (src : List S16) (sw sh sx sy : Nat) (j i : Nat) : S16 :=
  toS16 ((Scaling.pdpResampleBilin src sw sh ((i * sx / 2 ^ 14 : Nat) : Int)
    ((j * sy / 2 ^ 14 : Nat) : Int)).getD 0)

theorem scaledPixel_spec (hsw : 2 ≤ sw) (hsw' : sw ≤ 32769) (hsh : 2 ≤ sh) (hsh' : sh ≤ 32769)
    (hlen : src.length = sw * sh) (hx : i * sx < 2 ^ 30) (hy : j * sy < 2 ^ 30) :
    Scaling.pdpResampleBilin src sw sh ((i * sx / 2 ^ 14 : Nat) : Int)
        ((j * sy / 2 ^ 14 : Nat) : Int) = some (scaledPixel src sw sh sx sy j i).toInt ∧
      Between (scaledPixel src sw sh sx sy j i).toInt src := by
  obtain ⟨v, hv, hin, hbetween⟩ := @resampleBilin_spec src sw sh (i * sx / 2 ^ 14)
    (j * sy / 2 ^ 14) hsw hsw' hsh hsh' hlen (by omega) (by omega)
  have hmod : ∀ n : Nat, n < 2 ^ 30 → ((n / 2 ^ 14 : Nat) : Int) % 2 ^ 16 = (n / 2 ^ 14 : Nat) :=
    fun n hn => by omega
  have heq : Scaling.pdpResampleBilin src sw sh ((i * sx / 2 ^ 14 : Nat) : Int)
      ((j * sy / 2 ^ 14 : Nat) : Int) = some v := by
    unfold Scaling.pdpResampleBilin
    rw [hmod _ hx, hmod _ hy, hv]
  have hrange := @Between.bounds v _ hbetween (-2 ^ 15) (2 ^ 15 - 1) fun p _ => by
    have hlo := p.le_toInt
    have hhi := p.toInt_lt
    omega
  have htoInt : (scaledPixel src sw sh sx sy j i).toInt = v := by
    unfold scaledPixel
    rw [heq, Option.getD_some, toInt_toS16 (by omega) (by omega)]
  have hmem : ∀ k, k < src.length → src.getD k 0 ∈ src := fun k hk => by
    rw [List.getD_eq_getElem _ _ hk]
    exact List.getElem_mem hk
  have hblock : ∀ p ∈ blockAt src sw (i * sx / 2 ^ 14 * (sw - 1) / 2 ^ 16 +
      j * sy / 2 ^ 14 * (sh - 1) / 2 ^ 16 * sw), p ∈ src := by
    simp only [blockAt, List.forall_mem_cons, List.not_mem_nil, false_imp_iff, implies_true,
      and_true]
    exact ⟨hmem _ (by omega), hmem _ (by omega), hmem _ (by omega), hmem _ (by omega)⟩
  rw [htoInt]
  refine ⟨heq, ?_⟩
  obtain ⟨⟨p, hp, hpv⟩, q, hq, hqv⟩ := hbetween
  exact ⟨⟨p, hblock p hp, hpv⟩, q, hblock q hq, hqv⟩

theorem scaleRow_eq (hsw : 2 ≤ sw) (hsw' : sw ≤ 32769) (hsh : 2 ≤ sh) (hsh' : sh ≤ 32769)
    (hlen : src.length = sw * sh)
    (hx : ∀ i ≤ dw, i * sx ≤ 2 ^ 30 ∧ (i < dw → i * sx < 2 ^ 30)) (hy : j * sy < 2 ^ 30)
    (out : List S16) : Scaling.scaleRow src sw sh dw sx ((j * sy : Nat) : Int) out =
      some (((dw * sx : Nat) : Int), out ++ (List.range dw).map (scaledPixel src sw sh sx sy j)) := by
  have h := @rounds_eq _ (fun _ (virtX, out) => do
    let pixel ← Scaling.pdpResampleBilin src sw sh (virtX / 2 ^ 14) (((j * sy : Nat) : Int) / 2 ^ 14)
    let virtX ← checkedS32 (virtX + sx)
    pure (virtX, out ++ [toS16 pixel])) (fun k => (((k * sx : Nat) : Int),
      out ++ (List.range k).map (scaledPixel src sw sh sx sy j))) dw 0 fun k _ hk => by
    have hkx := (hx k (by omega)).2 (by omega)
    obtain ⟨heq, _⟩ := scaledPixel_spec hsw hsw' hsh hsh' hlen hkx hy
    have hdiv : ∀ n : Nat, ((n : Nat) : Int) / 2 ^ 14 = (n / 2 ^ 14 : Nat) := fun n => by omega
    have hpixel : toS16 (scaledPixel src sw sh sx sy j k).toInt = scaledPixel src sw sh sx sy j k :=
      BitVec.ofInt_toInt
    have hnext : ((k * sx : Nat) : Int) + sx = ((k + 1) * sx : Nat) := by
      rw [Nat.succ_mul]
      exact (Nat.cast_add _ _).symm
    have hnextx := (hx (k + 1) (by omega)).1
    dsimp only
    rw [hdiv, hdiv, heq, Option.bind_eq_bind, Option.bind_some, hnext,
      checkedS32_eq ⟨by omega, by omega⟩, Option.bind_some, hpixel, List.range_succ,
      List.map_append,
      ← List.append_assoc]
    rfl
  rw [Nat.zero_mul, Nat.zero_add, List.range_zero, List.map_nil, List.append_nil] at h
  unfold Scaling.scaleRow
  rw [Int.toNat_natCast]
  exact h

/-- `pdp_resample_scale_bilin` runs to its end: every value is an `int`, every pixel it reads is
in the source, and it writes one pixel for each of the destination, in order, each between the
smallest and the largest of the source. -/
theorem resampleScaleBilin_spec (hsw : 2 ≤ sw) (hsw' : sw ≤ 32769) (hsh : 2 ≤ sh)
    (hsh' : sh ≤ 32769) (hlen : src.length = sw * sh) (hdw : 1 ≤ dw) (hdw' : dw ≤ 2 ^ 30)
    (hdh : 1 ≤ dh) (hdh' : dh ≤ 2 ^ 30) :
    ∃ out, Scaling.pdpResampleScaleBilin src sw sh dw dh = some out ∧ out.length = dw * dh ∧
      (∀ p ∈ out, Between p.toInt src) ∧ ∀ c, (∀ p ∈ src, p = c) → ∀ p ∈ out, p = c := by
  obtain ⟨sx, hsx, hx⟩ := scaleOf_eq hdw hdw'
  obtain ⟨sy, hsy, hy⟩ := scaleOf_eq hdh hdh'
  have hrows := @rounds_eq _ (fun _ (virtY, out) => do
    let (_, out) ← Scaling.scaleRow src sw sh dw sx virtY out
    let virtY ← checkedS32 (virtY + sy)
    pure (virtY, out)) (fun k => (((k * sy : Nat) : Int),
      (List.range k).flatMap fun j => (List.range dw).map (scaledPixel src sw sh sx sy j))) dh 0
    fun k _ hk => by
      have hky := (hy k (by omega)).2 (by omega)
      have hnext : ((k * sy : Nat) : Int) + sy = ((k + 1) * sy : Nat) := by
        rw [Nat.succ_mul]
        exact (Nat.cast_add _ _).symm
      have hnexty := (hy (k + 1) (by omega)).1
      dsimp only
      rw [scaleRow_eq hsw hsw' hsh hsh' hlen hx hky, Option.bind_eq_bind, Option.bind_some, hnext,
        bind_checkedS32 ⟨by omega, by omega⟩, List.range_succ, List.flatMap_append,
        List.flatMap_singleton]
      rfl
  have hbetween : ∀ p ∈ (List.range dh).flatMap fun j =>
      (List.range dw).map (scaledPixel src sw sh sx sy j), Between p.toInt src := by
    intro p hp
    obtain ⟨j, hj, hp⟩ := List.mem_flatMap.mp hp
    obtain ⟨i, hi, rfl⟩ := List.mem_map.mp hp
    have hi := List.mem_range.mp hi
    have hj := List.mem_range.mp hj
    exact (scaledPixel_spec hsw hsw' hsh hsh' hlen ((hx i (by omega)).2 hi)
      ((hy j (by omega)).2 hj)).2
  refine ⟨_, ?_, ?_, hbetween, fun c hc p hp => ?_⟩
  · unfold Scaling.pdpResampleScaleBilin
    rw [Nat.zero_mul, List.range_zero, List.flatMap_nil, Nat.zero_add] at hrows
    rw [hsx, hsy, Option.bind_eq_bind, Option.bind_some, Option.bind_eq_bind, Option.bind_some,
      Int.toNat_natCast]
    exact (congrArg (fun r => r >>= fun (s : Int × List S16) => some s.2) hrows)
  · rw [List.length_flatMap]
    simp only [List.length_map, List.length_range, List.map_const', List.sum_replicate,
      smul_eq_mul]
    exact Nat.mul_comm dh dw
  · obtain ⟨⟨q, hq, hqp⟩, q', hq', hpq⟩ := hbetween p hp
    rw [hc q hq] at hqp
    rw [hc q' hq'] at hpq
    exact BitVec.toInt_inj.mp (Int.le_antisymm hpq hqp)

/-- From four pixels to six. -/
theorem resampleScaleBilin_spec_small : ∃ out,
    Scaling.pdpResampleScaleBilin [1, 2, 3, 4] (2 : Nat) (2 : Nat) (3 : Nat) (2 : Nat) = some out ∧
      out.length = 3 * 2 ∧ (∀ p ∈ out, Between p.toInt [1, 2, 3, 4]) ∧
      ∀ c, (∀ p ∈ ([1, 2, 3, 4] : List S16), p = c) → ∀ p ∈ out, p = c :=
  resampleScaleBilin_spec (by decide) (by decide) (by decide) (by decide) rfl (by decide)
    (by decide) (by decide) (by decide)

end Loops

end PureDataPacket
