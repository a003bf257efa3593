/-
# `PureDataPacket.Image.Colour` — the colour of a block, to YCrCb and back

`llconv_rgb2yvu_planar16sub` and `llconv_yvu16planar2rgbpacked`, one after the other, on an
image whose blocks of 2x2 pixels have one colour each.  The two matrices are in units of a
256th, cut off and not rounded, and each is only about the inverse of the other.

Every `int` of the two is checked where it is computed, and so is every value that is clamped
to 16 bits: `none` says that one of them was too large.

| | |
| :-- | :-- |
| `rgbOf_bounds` | the error of the two matrices and of the four divisions |
| `BlocksOfOneColour` | the images in question |
| `Exact` | nothing overflows in a block |
| `BlocksOfOneColour.component` | what comes back of a component of a pixel |
-/
import PureDataPacket.Image.Halving
import PureDataPacket.Image.Scaling

namespace PureDataPacket

/-! ## Checked arithmetic -/

namespace Colour

/-- `CLAMP16(x)`, if it is `x`. -/
def unclamped16 (x : Int) : Option Int := if clamp16 x = x then some x else none

/-- `y` of a pixel, in `llconv_rgb2yvu_planar16sub_indexed`. -/
def rgb2y (r g b : Int) : Option Int := do
  let x ← checkedS32 (fp 257 * r)
  let y ← checkedS32 (fp 504 * g)
  let sum ← checkedS32 (x + y)
  let z ← checkedS32 (fp 98 * b)
  let sum ← checkedS32 (sum + z)
  checkedS32 (sum + 16 * 256)

/-- Its `v`. -/
def rgb2v (r g b : Int) : Option Int := do
  let x ← checkedS32 (fp 439 * r)
  let y ← checkedS32 (fp 368 * g)
  let sum ← checkedS32 (x - y)
  let z ← checkedS32 (fp 71 * b)
  checkedS32 (sum - z)

/-- Its `u`. -/
def rgb2u (r g b : Int) : Option Int := do
  let x ← checkedS32 (fp 148 * r)
  let x ← checkedS32 (-x)
  let y ← checkedS32 (fp 291 * g)
  let sum ← checkedS32 (x - y)
  let z ← checkedS32 (fp 439 * b)
  checkedS32 (sum + z)

/-- The luma sample of a pixel. -/
def luma (r g b : Int) : Option Int := do
  let y ← rgb2y r g b
  unclamped16 (y / 2)

/-- The chroma sample that two pixels add up to. -/
def chroma (rgb2c : Int → Int → Int → Option Int) (r g b r' g' b' : Int) : Option Int := do
  let c ← rgb2c r g b
  let c' ← rgb2c r' g' b'
  let sum ← checkedS32 (c + c')
  unclamped16 (sum / 2)

/-- `r`, `g` and `b` of a pixel, in `llconv_yvu16planar2rgbpacked`. -/
def yvu2rgb (y v u : Int) : Option (Int × Int × Int) := do
  let b1 ← checkedS32 (fp 2018 * u)
  let g1 ← checkedS32 (fp (-813) * v)
  let g2 ← checkedS32 (fp (-391) * u)
  let g1 ← checkedS32 (g1 + g2)
  let r1 ← checkedS32 (fp 1596 * v)
  let y ← checkedS32 (y * 2)
  let y1 ← checkedS32 (fp 1164 * y)
  let y1 ← checkedS32 (y1 - 16 * 256 * 256)
  let b ← checkedS32 (b1 + y1)
  let g ← checkedS32 (g1 + y1)
  let r ← checkedS32 (r1 + y1)
  pure (r / 2 ^ 16, g / 2 ^ 16, b / 2 ^ 16)

def lumaOf (r g b : Int) : Int := (65 * r + 129 * g + 25 * b + 4096) / 2

def rgbOf (y v u : Int) : Int × Int × Int :=
  ((408 * v + (594 * y - 1048576)) / 2 ^ 16, (-208 * v + -100 * u + (594 * y - 1048576)) / 2 ^ 16,
    (516 * u + (594 * y - 1048576)) / 2 ^ 16)

def IsByte (x : Int) : Prop := 0 ≤ x ∧ x ≤ 255

section Values

variable {r g b : Int}

theorem rgb2y_spec (hr : IsByte r) (hg : IsByte g) (hb : IsByte b) :
    rgb2y r g b = some (65 * r + 129 * g + 25 * b + 4096) := by
  unfold IsByte at *
  have h257 : fp 257 = 65 := rfl
  have h504 : fp 504 = 129 := rfl
  have h98 : fp 98 = 25 := rfl
  unfold rgb2y
  rw [h257, h504, h98, bind_checkedS32 ⟨by omega, by omega⟩, bind_checkedS32 ⟨by omega, by omega⟩,
    bind_checkedS32 ⟨by omega, by omega⟩, bind_checkedS32 ⟨by omega, by omega⟩,
    bind_checkedS32 ⟨by omega, by omega⟩, checkedS32_eq ⟨by omega, by omega⟩]
  rfl

theorem rgb2v_spec (hr : IsByte r) (hg : IsByte g) (hb : IsByte b) :
    rgb2v r g b = some (112 * r - 94 * g - 18 * b) := by
  unfold IsByte at *
  have h439 : fp 439 = 112 := rfl
  have h368 : fp 368 = 94 := rfl
  have h71 : fp 71 = 18 := rfl
  unfold rgb2v
  rw [h439, h368, h71, bind_checkedS32 ⟨by omega, by omega⟩, bind_checkedS32 ⟨by omega, by omega⟩,
    bind_checkedS32 ⟨by omega, by omega⟩, bind_checkedS32 ⟨by omega, by omega⟩,
    checkedS32_eq ⟨by omega, by omega⟩]

theorem rgb2u_spec (hr : IsByte r) (hg : IsByte g) (hb : IsByte b) :
    rgb2u r g b = some (-(37 * r) - 74 * g + 112 * b) := by
  unfold IsByte at *
  have h148 : fp 148 = 37 := rfl
  have h291 : fp 291 = 74 := rfl
  have h439 : fp 439 = 112 := rfl
  unfold rgb2u
  rw [h148, h291, h439, bind_checkedS32 ⟨by omega, by omega⟩, bind_checkedS32 ⟨by omega, by omega⟩,
    bind_checkedS32 ⟨by omega, by omega⟩, bind_checkedS32 ⟨by omega, by omega⟩,
    bind_checkedS32 ⟨by omega, by omega⟩, checkedS32_eq ⟨by omega, by omega⟩]

theorem unclamped16_eq {x : Int} (h0 : -0x7fff ≤ x) (h1 : x ≤ 0x7fff) : unclamped16 x = some x := by
  have hclamp : clamp16 x = x := by
    unfold clamp16
    rw [if_neg (by omega), if_neg (by omega)]
  exact if_pos hclamp

theorem luma_spec (hr : IsByte r) (hg : IsByte g) (hb : IsByte b) :
    luma r g b = some (lumaOf r g b) := by
  unfold luma
  rw [rgb2y_spec hr hg hb]
  unfold IsByte at *
  exact unclamped16_eq (by omega) (by omega)

/-- Nor is the chroma of two pixels of one colour. -/
theorem chroma_spec {rgb2c : Int → Int → Int → Option Int} {c : Int} (h : rgb2c r g b = some c)
    (h0 : -28560 ≤ c) (h1 : c ≤ 28560) : chroma rgb2c r g b r g b = some c := by
  have hmean : (c + c) / 2 = c := by omega
  unfold chroma
  rw [h, Option.bind_eq_bind, Option.bind_some, Option.bind_some, checkedS32_eq
    ⟨by omega, by omega⟩, Option.bind_some, hmean]
  exact unclamped16_eq (by omega) (by omega)

theorem yvu2rgb_spec {y v u : Int} (hy : 2048 ≤ y ∧ y ≤ 29970) (hv : -28560 ≤ v ∧ v ≤ 28560)
    (hu : -28560 ≤ u ∧ u ≤ 28560) : yvu2rgb y v u = some (rgbOf y v u) := by
  have h2018 : fp 2018 = 516 := rfl
  have h813 : fp (-813) = -208 := rfl
  have h391 : fp (-391) = -100 := rfl
  have h1596 : fp 1596 = 408 := rfl
  have h1164 : fp 1164 = 297 := rfl
  have hy1 : 297 * (y * 2) - 16 * 256 * 256 = 594 * y - 1048576 := by omega
  unfold yvu2rgb
  rw [h2018, h813, h391, h1596, h1164, bind_checkedS32 ⟨by omega, by omega⟩,
    bind_checkedS32 ⟨by omega, by omega⟩, bind_checkedS32 ⟨by omega, by omega⟩,
    bind_checkedS32 ⟨by omega, by omega⟩, bind_checkedS32 ⟨by omega, by omega⟩,
    bind_checkedS32 ⟨by omega, by omega⟩, bind_checkedS32 ⟨by omega, by omega⟩,
    bind_checkedS32 ⟨by omega, by omega⟩, bind_checkedS32 ⟨by omega, by omega⟩,
    bind_checkedS32 ⟨by omega, by omega⟩, bind_checkedS32 ⟨by omega, by omega⟩, hy1]
  rfl

theorem rgbOf_bounds (hr : IsByte r) (hg : IsByte g) (hb : IsByte b) :
    (r ≤ (rgbOf (lumaOf r g b) (112 * r - 94 * g - 18 * b) (-(37 * r) - 74 * g + 112 * b)).1 ∧
      (rgbOf (lumaOf r g b) (112 * r - 94 * g - 18 * b) (-(37 * r) - 74 * g + 112 * b)).1 ≤
        r + 3) ∧
    (g ≤ (rgbOf (lumaOf r g b) (112 * r - 94 * g - 18 * b) (-(37 * r) - 74 * g + 112 * b)).2.1 ∧
      (rgbOf (lumaOf r g b) (112 * r - 94 * g - 18 * b) (-(37 * r) - 74 * g + 112 * b)).2.1 ≤
        g + 3) ∧
    b ≤ (rgbOf (lumaOf r g b) (112 * r - 94 * g - 18 * b) (-(37 * r) - 74 * g + 112 * b)).2.2 ∧
      (rgbOf (lumaOf r g b) (112 * r - 94 * g - 18 * b) (-(37 * r) - 74 * g + 112 * b)).2.2 ≤
        b + 3 := by
  unfold IsByte at *
  unfold rgbOf lumaOf
  dsimp only
  have hy : ∃ y, (65 * r + 129 * g + 25 * b + 4096) / 2 = y := ⟨_, rfl⟩
  obtain ⟨y, hy⟩ := hy
  rw [hy]
  refine ⟨⟨?_, ?_⟩, ⟨?_, ?_⟩, ?_, ?_⟩ <;> omega

end Values

/-- The chroma of a pixel, checked. -/
def checkedChroma : Chroma → Int → Int → Int → Option Int
  | .v => rgb2v
  | .u => rgb2u

theorem checkedChroma_spec {r g b : Int} (c : Chroma) (hr : IsByte r) (hg : IsByte g)
    (hb : IsByte b) : checkedChroma c r g b = some (c.ofRgb r g b) ∧
      -28560 ≤ c.ofRgb r g b ∧ c.ofRgb r g b ≤ 28560 := by
  cases c with
  | v =>
      refine ⟨rgb2v_spec hr hg hb, ?_⟩
      show -28560 ≤ PureDataPacket.rgb2v r g b ∧ PureDataPacket.rgb2v r g b ≤ 28560
      unfold IsByte at *
      rw [rgb2v_eq]
      omega
  | u =>
      refine ⟨rgb2u_spec hr hg hb, ?_⟩
      show -28560 ≤ PureDataPacket.rgb2u r g b ∧ PureDataPacket.rgb2u r g b ≤ 28560
      unfold IsByte at *
      rw [rgb2u_eq]
      omega

end Colour

/-! ## Back to packed pixels -/

/-- The body of the loops of `llconv_yvu16planar2rgbpacked`, for block row `row` and block
column `k`. -/
def rgbBlock (a b row k : Nat) : List Step :=
  (List.finRange 4).flatMap fun t => llconvRgbPixel (blockPixel a row k t)
    (Chroma.v.index a b row k) (Chroma.u.index a b row k) (3 * blockPixel a row k t : Nat)

section Back

variable {a b row k : Nat} {src dst out : List UInt8}

theorem llconvRgbBlock_eq : llconvRgbBlock (2 * a) (2 * a * (2 * b)) (2 * a * 2 * row) (2 * k) =
    rgbBlock a b row k := by
  have hsize : (2 * a * (2 * b) : Int) = 4 * (a * b) := by ring
  have hrow : (2 * a * 2 * row : Int) = 4 * (a * row) := by ring
  have hquarter : (2 * k : Int) / 2 + 4 * (a * row) / 4 = a * row + k := by omega
  have hplane : (4 * (a * b) : Int) / 4 = a * b := by omega
  have hv : (4 * (a * b) : Int) + (a * row + k) = (Chroma.v.index a b row k : Nat) := by
    simp only [Chroma.index, Nat.cast_add, Nat.cast_mul, Nat.cast_ofNat]
  have hu : (4 * (a * b) : Int) + a * b + (a * row + k) = (Chroma.u.index a b row k : Nat) := by
    simp only [Chroma.index, Nat.cast_add, Nat.cast_mul, Nat.cast_ofNat]
    omega
  have hpixel : ∀ t : Fin 4, ∀ i j : Int, i = blockPixel a row k t → j = 3 * i →
      llconvRgbPixel i (Chroma.v.index a b row k) (Chroma.u.index a b row k) j =
        llconvRgbPixel (blockPixel a row k t) (Chroma.v.index a b row k)
          (Chroma.u.index a b row k) (3 * blockPixel a row k t : Nat) := by
    rintro t i j rfl rfl
    rw [Nat.cast_mul, Nat.cast_ofNat]
  have h0 := @blockPixel_cast a row k 0
  have h1 := @blockPixel_cast a row k 1
  have h2 := @blockPixel_cast a row k 2
  have h3 := @blockPixel_cast a row k 3
  norm_num at h0 h1 h2 h3
  simp only [llconvRgbBlock, hsize, hrow, hquarter, hplane, hv, hu]
  rw [hpixel 3 (2 * k + 4 * (a * row) + 2 * a + 1) _ (by omega) (by omega),
    hpixel 2 (2 * k + 4 * (a * row) + 2 * a) _ (by omega) (by omega),
    hpixel 1 (2 * k + 4 * (a * row) + 1) _ (by omega) (by omega),
    hpixel 0 (2 * k + 4 * (a * row)) _ (by omega) (by omega)]
  simp only [List.append_assoc]
  rfl

theorem llconvYvu16planar2rgbpacked_eq (hdims : YvuDims rgbLayout a b) :
    llconvYvu16planar2rgbpacked (2 * a) (2 * b) =
      some (stepsFor b fun row => stepsFor a (rgbBlock a b row)) := by
  have hsize : intMul (2 * a) (2 * b) = some _ := intMul_eq_some.mpr ⟨hdims.size, rfl⟩
  have hrgbw : intMul (2 * a) 3 = some _ := intMul_eq_some.mpr ⟨hdims.loffset, rfl⟩
  unfold llconvYvu16planar2rgbpacked
  simp only [hsize, hrgbw, Option.bind_eq_bind, Option.bind_some]
  rcases Nat.eq_zero_or_pos a with rfl | ha
  · have hempty : (stepsFor b fun row => stepsFor 0 (rgbBlock 0 b row)) = [] :=
      List.flatMap_eq_nil_iff.mpr fun row _ => rfl
    rw [hempty]
    norm_num [forRows, iterations, stepsFor]
  · have hrows : iterations (2 * a * (2 * b)) (2 * a * 2) = b := by
      have := @iterations_of_mul 0 (2 * a * 2) (by omega) b
      rwa [show (0 + 2 * a * 2 * b - 0 : Int) = 2 * a * (2 * b) by ring] at this
    have hcols : iterations (2 * a) 2 = a := by
      have := @iterations_of_mul 0 2 (by omega) a
      rwa [Int.zero_add, Int.sub_zero] at this
    unfold forRows
    rw [if_neg (by omega), hrows]
    simp only [stepsUpTo, hcols]
    refine congrArg some (congrArg (stepsFor b) (funext fun row => ?_))
    exact congrArg (stepsFor a) (funext fun k => llconvRgbBlock_eq)

theorem exists_blockPixel {q : Nat} (hq : q < 4 * (a * b)) : ∃ row < b, ∃ k < a, ∃ t : Fin 4,
    q = blockPixel a row k t := by
  have hplane : 2 * a * (2 * b) = 4 * (a * b) := by ring
  obtain ⟨y, hy, x, hx, rfl⟩ := exists_mul_add (hplane ▸ hq)
  obtain ⟨row, hrow, k, hk, hmem⟩ := exists_block_first hx hy
  refine ⟨row, hrow, k, hk, ?_⟩
  simp only [blockIndices, List.take_succ_cons, List.take_zero, List.mem_cons, List.not_mem_nil,
    or_false] at hmem
  have h2 : blockPixel a row k 2 = 4 * (a * row) + 2 * k + 2 * a := by
    norm_num [blockPixel]
  have h3 : blockPixel a row k 3 = 4 * (a * row) + 2 * k + 1 + 2 * a := by
    norm_num [blockPixel]
  rcases hmem with h | h | h | h
  · exact ⟨0, h⟩
  · exact ⟨1, h⟩
  · exact ⟨2, h.trans h2.symm⟩
  · exact ⟨3, h.trans (by omega)⟩

theorem mem_rgbBlock {st : Step} : st ∈ rgbBlock a b row k ↔ ∃ t, st ∈ llconvRgbPixel
    (blockPixel a row k t) (Chroma.v.index a b row k) (Chroma.u.index a b row k)
      (3 * blockPixel a row k t : Nat) := by
  unfold rgbBlock
  rw [List.mem_flatMap]
  exact ⟨fun ⟨t, _, h⟩ => ⟨t, h⟩, fun ⟨t, h⟩ => ⟨t, List.mem_finRange t, h⟩⟩

theorem once_rgb : Once u8 (3 * (4 * (a * b)))
    (stepsFor b fun row => stepsFor a (rgbBlock a b row)) := by
  have hlen : ∀ row k, (rgbBlock a b row k).length = 12 := fun _ _ => rfl
  refine .of_exists (fun st hst => ?_) ?_ fun i hi => ?_
  · obtain ⟨row, _, hst⟩ := mem_stepsFor.mp hst
    obtain ⟨k, _, hst⟩ := mem_stepsFor.mp hst
    obtain ⟨t, hst⟩ := mem_rgbBlock.mp hst
    simp only [llconvRgbPixel, List.mem_cons, List.not_mem_nil, or_false] at hst
    rcases hst with rfl | rfl | rfl <;> rfl
  · rw [length_stepsFor fun row => length_stepsFor (hlen row)]
    exact Nat.le_of_eq (by ring)
  · obtain ⟨row, hrow, k, hk, t, ht⟩ := exists_blockPixel (show i / 3 < 4 * (a * b) by omega)
    have hblock : ∀ st ∈ rgbBlock a b row k,
        st ∈ stepsFor b fun row => stepsFor a (rgbBlock a b row) := fun st hst =>
      mem_stepsFor.mpr ⟨row, hrow, mem_stepsFor.mpr ⟨k, hk, hst⟩⟩
    have hpixel : ∃ st ∈ llconvRgbPixel (blockPixel a row k t) (Chroma.v.index a b row k)
        (Chroma.u.index a b row k) (3 * blockPixel a row k t : Nat), st.index = (i : Int) := by
      simp only [llconvRgbPixel, List.exists_mem_cons_iff, List.not_mem_nil, false_and,
        exists_false, or_false, ← ht]
      omega
    obtain ⟨st, hst, hindex⟩ := hpixel
    exact ⟨st, hblock st (mem_rgbBlock.mpr ⟨t, hst⟩), hindex⟩

theorem load_rgb (hrow : row < b) (hk : k < a) (t : Fin 4)
    (hrun : runSteps src (stepsFor b fun row => stepsFor a (rgbBlock a b row)) dst = some out) :
    ∃ r g b', Colour.rgbOf (s16.load src (blockPixel a row k t))
        (s16.load src (Chroma.v.index a b row k)) (s16.load src (Chroma.u.index a b row k)) =
          (r, g, b') ∧ u8.load out (3 * blockPixel a row k t : Nat) = clamp8 r ∧
      u8.load out (3 * blockPixel a row k t + 1 : Nat) = clamp8 g ∧
      u8.load out (3 * blockPixel a row k t + 2 : Nat) = clamp8 b' := by
  have hclamp : ∀ x, u8.wrap (clamp8 x) = clamp8 x := by
    intro x
    have hbounds : 0 ≤ clamp8 x ∧ clamp8 x ≤ 255 := by
      unfold clamp8
      split
      · omega
      · split <;> omega
    exact Format.wrap_u8_of_bounds hbounds.1 (by omega)
  have hload : ∀ st ∈ llconvRgbPixel (blockPixel a row k t) (Chroma.v.index a b row k)
      (Chroma.u.index a b row k) (3 * blockPixel a row k t : Nat),
      u8.load out st.index = u8.wrap (st.value (st.loads.map (st.source.load src))) := fun st hst =>
    once_rgb.load hrun (mem_stepsFor.mpr ⟨row, hrow, mem_stepsFor.mpr
      ⟨k, hk, mem_rgbBlock.mpr ⟨t, hst⟩⟩⟩)
  simp only [llconvRgbPixel, List.forall_mem_cons, List.not_mem_nil, false_imp_iff, implies_true,
    and_true, List.map_cons, List.map_nil, hclamp] at hload
  obtain ⟨hr, hg, hb⟩ := hload
  have hy : ∀ y, fp 1164 * (y * 2) - 16 * 256 * 256 = 594 * y - 1048576 := by
    intro y
    show (297 : Int) * (y * 2) - 1048576 = 594 * y - 1048576
    omega
  rw [hy] at hr hg hb
  refine ⟨_, _, _, rfl, ?_, hg, hb⟩
  rw [Int.add_zero] at hr
  exact hr

theorem fits_rgb {n m : Nat} (hn : n = 2 * (6 * (a * b))) (hm : m = 3 * (4 * (a * b))) :
    Fits (stepsFor b fun row => stepsFor a (rgbBlock a b row)) n m := by
  simp only [fits_stepsFor]
  intro row hrow k hk st hst
  obtain ⟨t, hst⟩ := mem_rgbBlock.mp hst
  have ht := blockPixel_lt hrow hk t
  have hv := Chroma.v.index_lt hrow hk
  have hu := Chroma.u.index_lt hrow hk
  have hfits : Fits (llconvRgbPixel (blockPixel a row k t) (Chroma.v.index a b row k)
      (Chroma.u.index a b row k) (3 * blockPixel a row k t : Nat)) n m := by
    rw [fits_llconvRgbPixel]
    simp only [within_s16, within_u8]
    omega
  exact hfits st hst

end Back

/-! ## There and back -/

/-- An image of `2 * a` by `2 * b` pixels whose blocks have one colour each. -/
structure BlocksOfOneColour (a b : Nat) (src : DataArea) : Prop where
  size : src.size = 3 * (2 * a * (2 * b))
  /-- An `int` holds the length of a row also of an image without rows. -/
  row : b = 0 → IsInt (2 * a * 3)
  colour : ∀ row < b, ∀ k < a, ∀ t : Fin 4, ∀ c < 3,
    u8.load src.bytes (3 * blockPixel a row k t + c : Nat) =
      u8.load src.bytes (3 * blockPixel a row k 0 + c : Nat)

namespace Colour

/-- What `f` makes of the components of a pixel. -/
def ofPixel {α : Type} (f : Int → Int → Int → α) (src : List UInt8) (q : Nat) : α :=
  f (u8.load src (3 * q : Nat)) (u8.load src (3 * q + 1 : Nat)) (u8.load src (3 * q + 2 : Nat))

/-- In a block, nothing overflows on the way and nothing is clipped to 16 bits: the checked
computations give what is stored. -/
structure Exact (src mid out : List UInt8) (a b row k : Nat) : Prop where
  luma : ∀ t, ofPixel luma src (blockPixel a row k t) = some (s16.load mid (blockPixel a row k t))
  upper : ∀ c, (ofPixel (ofPixel (chroma (checkedChroma c)) src (blockPixel a row k 0)) src
    (blockPixel a row k 1)).isSome
  lower : ∀ c, ofPixel (ofPixel (chroma (checkedChroma c)) src (blockPixel a row k 2)) src
    (blockPixel a row k 3) = some (s16.load mid (c.index a b row k))
  rgb : ∀ t, ∃ r g b', yvu2rgb (s16.load mid (blockPixel a row k t))
      (s16.load mid (Chroma.v.index a b row k)) (s16.load mid (Chroma.u.index a b row k)) =
        some (r, g, b') ∧
    ofPixel (fun r g b => [r, g, b]) out (blockPixel a row k t) = [clamp8 r, clamp8 g, clamp8 b']

end Colour

section Image

variable {a b row k : Nat} {src : DataArea} {yvu dst mid out : List UInt8}

theorem BlocksOfOneColour.dims (h : BlocksOfOneColour a b src) : YvuDims rgbLayout a b := by
  have hsize : src.bytes.length = 3 * (2 * a * (2 * b)) := h.size
  have hlt := src.size_lt
  have hcast : (2 * a * (2 * b) : Int) = (2 * a * (2 * b) : Nat) := by push_cast; ring
  constructor
  · rw [hcast]
    exact ⟨by omega, by omega⟩
  · rcases Nat.eq_zero_or_pos b with hb | hb
    · exact h.row hb
    · have hle : 2 * a * 1 ≤ 2 * a * (2 * b) := Nat.mul_le_mul_left _ (by omega)
      exact ⟨by show (-2 ^ 31 : Int) ≤ 2 * a * 3; omega, by show (2 * a * 3 : Int) < 2 ^ 31; omega⟩

theorem isByte_load (m : List UInt8) (i : Int) : Colour.IsByte (u8.load m i) := u8_load_bounds m i

theorem sample_rgbLayout {src : List UInt8} {f : Int → Int → Int → Int} {q : Nat} :
    rgbLayout.sample src f q = Colour.ofPixel f src q := by
  unfold RgbLayout.sample Colour.ofPixel
  push_cast
  rw [← Int.add_zero (3 * (q : Int))]
  rfl

theorem BlocksOfOneColour.ofPixel {α : Type} (h : BlocksOfOneColour a b src) (hrow : row < b)
    (hk : k < a) (t : Fin 4) (f : Int → Int → Int → α) :
    Colour.ofPixel f src.bytes (blockPixel a row k t) =
      Colour.ofPixel f src.bytes (blockPixel a row k 0) := by
  have hr := h.colour row hrow k hk t 0 (by decide)
  have hg := h.colour row hrow k hk t 1 (by decide)
  have hb := h.colour row hrow k hk t 2 (by decide)
  rw [Nat.add_zero, Nat.add_zero] at hr
  unfold Colour.ofPixel
  rw [hr, hg, hb]

theorem BlocksOfOneColour.samples (h : BlocksOfOneColour a b src) (hrow : row < b) (hk : k < a)
    (hmid : BlockOf s16 (fun y => clamp16 (y / 2)) (fun c => clamp16 (c / 2)) rgbLayout src.bytes
      mid a b row k) :
    (∀ t, s16.load mid (blockPixel a row k t) =
      Colour.ofPixel Colour.lumaOf src.bytes (blockPixel a row k 0)) ∧
    ∀ c : Chroma, s16.load mid (c.index a b row k) =
      Colour.ofPixel c.ofRgb src.bytes (blockPixel a row k 0) := by
  constructor
  · intro t
    obtain ⟨h0, h1⟩ := @sample_y_bounds rgbLayout src.bytes (blockPixel a row k t)
    rw [hmid.luma t, (luma_paths h0 h1).1, sample_rgbLayout, h.ofPixel hrow hk]
    rfl
  · intro c
    have h2 := @sample_chroma_bounds rgbLayout src.bytes (blockPixel a row k 2) c
    have h3 := @sample_chroma_bounds rgbLayout src.bytes (blockPixel a row k 3) c
    rw [hmid.chroma c, chroma_s16 (by omega) (by omega), sample_rgbLayout, sample_rgbLayout,
      h.ofPixel hrow hk 2, h.ofPixel hrow hk 3]
    omega

theorem BlocksOfOneColour.exact (h : BlocksOfOneColour a b src) (hrow : row < b) (hk : k < a)
    (hmid : BlockOf s16 (fun y => clamp16 (y / 2)) (fun c => clamp16 (c / 2)) rgbLayout src.bytes
      mid a b row k)
    (hrun : runSteps mid (stepsFor b fun row => stepsFor a (rgbBlock a b row)) dst = some out) :
    Colour.Exact src.bytes mid out a b row k := by
  obtain ⟨hluma, hchroma⟩ := h.samples hrow hk hmid
  have hr := isByte_load src.bytes (3 * blockPixel a row k 0 : Nat)
  have hg := isByte_load src.bytes (3 * blockPixel a row k 0 + 1 : Nat)
  have hb := isByte_load src.bytes (3 * blockPixel a row k 0 + 2 : Nat)
  have hc : ∀ c, Colour.ofPixel (Colour.ofPixel (Colour.chroma (Colour.checkedChroma c)) src.bytes
      (blockPixel a row k 0)) src.bytes (blockPixel a row k 0) =
        some (Colour.ofPixel c.ofRgb src.bytes (blockPixel a row k 0)) := by
    intro c
    obtain ⟨hspec, hlo, hhi⟩ := Colour.checkedChroma_spec c hr hg hb
    exact Colour.chroma_spec hspec hlo hhi
  constructor
  · intro t
    rw [hluma, h.ofPixel hrow hk]
    exact Colour.luma_spec hr hg hb
  · intro c
    rw [h.ofPixel hrow hk 1, hc]
    rfl
  · intro c
    rw [h.ofPixel hrow hk 3, h.ofPixel hrow hk 2, hc, hchroma]
  · intro t
    obtain ⟨r, g, b', hrgb, hout⟩ := load_rgb hrow hk t hrun
    refine ⟨r, g, b', ?_, ?_⟩
    · have hv := (Colour.checkedChroma_spec .v hr hg hb).2
      have hu := (Colour.checkedChroma_spec .u hr hg hb).2
      have hy : 2048 ≤ Colour.ofPixel Colour.lumaOf src.bytes (blockPixel a row k 0) ∧
          Colour.ofPixel Colour.lumaOf src.bytes (blockPixel a row k 0) ≤ 29970 := by
        unfold Colour.IsByte at hr hg hb
        unfold Colour.ofPixel Colour.lumaOf
        omega
      rw [← hrgb, hluma, hchroma, hchroma]
      exact Colour.yvu2rgb_spec hy hv hu
    · unfold Colour.ofPixel
      rw [hout.1, hout.2.1, hout.2.2]

theorem clamp8_between {x y : Int} (hx : Colour.IsByte x) (h0 : x ≤ y) (h1 : y ≤ x + 3) :
    x ≤ clamp8 y ∧ clamp8 y ≤ min 255 (x + 3) := by
  unfold Colour.IsByte at hx
  unfold clamp8
  split
  · omega
  · split <;> omega

theorem BlocksOfOneColour.component (h : BlocksOfOneColour a b src) (hrow : row < b) (hk : k < a)
    (hmid : BlockOf s16 (fun y => clamp16 (y / 2)) (fun c => clamp16 (c / 2)) rgbLayout src.bytes
      mid a b row k)
    (hrun : runSteps mid (stepsFor b fun row => stepsFor a (rgbBlock a b row)) dst = some out)
    (t : Fin 4) {c : Nat} (hc : c < 3) :
    u8.load src.bytes (3 * blockPixel a row k t + c : Nat) ≤
        u8.load out (3 * blockPixel a row k t + c : Nat) ∧
      u8.load out (3 * blockPixel a row k t + c : Nat) ≤
        min 255 (u8.load src.bytes (3 * blockPixel a row k t + c : Nat) + 3) := by
  obtain ⟨hluma, hchroma⟩ := h.samples hrow hk hmid
  have hr := isByte_load src.bytes (3 * blockPixel a row k 0 : Nat)
  have hg := isByte_load src.bytes (3 * blockPixel a row k 0 + 1 : Nat)
  have hb := isByte_load src.bytes (3 * blockPixel a row k 0 + 2 : Nat)
  obtain ⟨r, g, b', hrgb, hr', hg', hb'⟩ := load_rgb hrow hk t hrun
  obtain ⟨hboundR, hboundG, hboundB⟩ := Colour.rgbOf_bounds hr hg hb
  have hsame : Colour.rgbOf (s16.load mid (blockPixel a row k t))
      (s16.load mid (Chroma.v.index a b row k)) (s16.load mid (Chroma.u.index a b row k)) =
      Colour.rgbOf (Colour.lumaOf (u8.load src.bytes (3 * blockPixel a row k 0 : Nat))
        (u8.load src.bytes (3 * blockPixel a row k 0 + 1 : Nat))
        (u8.load src.bytes (3 * blockPixel a row k 0 + 2 : Nat)))
        (112 * u8.load src.bytes (3 * blockPixel a row k 0 : Nat) -
          94 * u8.load src.bytes (3 * blockPixel a row k 0 + 1 : Nat) -
          18 * u8.load src.bytes (3 * blockPixel a row k 0 + 2 : Nat))
        (-(37 * u8.load src.bytes (3 * blockPixel a row k 0 : Nat)) -
          74 * u8.load src.bytes (3 * blockPixel a row k 0 + 1 : Nat) +
          112 * u8.load src.bytes (3 * blockPixel a row k 0 + 2 : Nat)) := by
    rw [hluma, hchroma, hchroma]
    rfl
  rw [← hsame, hrgb] at hboundR hboundG hboundB
  rw [h.colour row hrow k hk t c hc]
  match c, hc with
  | 0, _ =>
      rw [Nat.add_zero, Nat.add_zero, hr']
      exact clamp8_between hr hboundR.1 hboundR.2
  | 1, _ =>
      rw [hg']
      exact clamp8_between hg hboundG.1 hboundG.2
  | 2, _ =>
      rw [hb']
      exact clamp8_between hb hboundB.1 hboundB.2

/-- To YCrCb and back: no component gets smaller, and none gets larger by more than 3, whatever
was in the targets. -/
theorem colour_roundTrip (h : BlocksOfOneColour a b src) (hyvu : yvu.length = 2 * (6 * (a * b)))
    (hdst : dst.length = src.size) :
    ∃ l l' mid out, llconvRgb2yvuPlanar16sub (2 * a) (2 * b) = some l ∧
      llconvYvu16planar2rgbpacked (2 * a) (2 * b) = some l' ∧
      runSteps src.bytes l yvu = some mid ∧ runSteps mid l' dst = some out ∧
      (∀ i < src.size, u8.load src.bytes i ≤ u8.load out i ∧
        u8.load out i ≤ min 255 (u8.load src.bytes i + 3)) ∧
      ∀ row < b, ∀ k < a, Colour.Exact src.bytes mid out a b row k := by
  have hsize : src.size = 3 * (4 * (a * b)) := h.size.trans (by ring)
  have hlen : (src.bytes.length : Int) = rgbLayout.stride * (4 * (a * b) : Nat) :=
    (congrArg (fun n : Nat => (n : Int)) hsize).trans (Nat.cast_mul 3 (4 * (a * b)))
  obtain ⟨mid, hmid⟩ := runSteps_isSome_iff.mpr (@fits_yvu s16
    (fun y => clamp16 (y / 2)) (fun c => clamp16 (c / 2)) _ a b _ yvu.length
    proper_rgbLayout hlen fun i hi => within_s16.mpr (by omega))
  obtain ⟨out, hout⟩ := runSteps_isSome_iff.mpr
    (@fits_rgb a b mid.length dst.length ((length_runSteps hmid).trans hyvu) (hdst.trans hsize))
  refine ⟨_, _, mid, out, llconvRgb2yvu_eq h.dims, llconvYvu16planar2rgbpacked_eq h.dims, hmid,
    hout, fun i hi => ?_, fun row hrow k hk => h.exact hrow hk (blockOf_of_run hrow hk hmid) hout⟩
  obtain ⟨row, hrow, k, hk, t, ht⟩ := exists_blockPixel (show i / 3 < 4 * (a * b) by omega)
  have hcomponent := h.component hrow hk (blockOf_of_run hrow hk hmid) hout t
    (Nat.mod_lt i (by decide : 0 < 3))
  rw [← ht, Nat.div_add_mod] at hcomponent
  exact hcomponent

def orange : DataArea where
  bytes := [255, 128, 1, 255, 128, 1, 255, 128, 1, 255, 128, 1]
  size_lt := by decide

theorem blocksOfOneColour_orange : BlocksOfOneColour 1 1 orange :=
  ⟨rfl, fun h => absurd h (by decide), by decide⟩

theorem colour_roundTrip_orange :
    ∃ l l' mid out, llconvRgb2yvuPlanar16sub (2 * (1 : Nat)) (2 * (1 : Nat)) = some l ∧
      llconvYvu16planar2rgbpacked (2 * (1 : Nat)) (2 * (1 : Nat)) = some l' ∧
      runSteps orange.bytes l (List.replicate 12 7) = some mid ∧
      runSteps mid l' (List.replicate 12 9) = some out ∧
      (∀ i < orange.size, u8.load orange.bytes i ≤ u8.load out i ∧
        u8.load out i ≤ min 255 (u8.load orange.bytes i + 3)) ∧
      ∀ row < 1, ∀ k < 1, Colour.Exact orange.bytes mid out 1 1 row k :=
  colour_roundTrip blocksOfOneColour_orange rfl rfl

end Image

end PureDataPacket
