/-
# `PureDataPacket.Image.Plasma` — an image by subdivision

`pdp_imageproc_plasma_process` gives the four corners of an image random values and divides the
rectangle again and again: the pixels half way get colours between those of the corners.  The
parts share their edges, and a part whose edge has been computed by the part beside it does not
compute it again.

A pixel is `none` until this call has assigned it.  The result is `none` when an access is not
in the image, a pixel is read that has not been assigned, or an `int` overflows.

| | |
| :-- | :-- |
| `Ready` | what a rectangle needs to be filled |
| `newColor_spec` | two or three values are drawn for a colour, and no pixel is assigned |
| `exists_divided` | the five pixels between the corners |
| `exists_parts` | the four parts in the order of the calls |
| `subdivides` | every rectangle is filled |
-/
import PureDataPacket.Image.Accumulators
import PureDataPacket.Kernel.Packet
import PureDataPacket.Lib.Assigned
import PureDataPacket.Lib.Elements

namespace PureDataPacket

open Row (Assigned Grows)

/-! ## The routine -/

/-- `t_plasma`, after `pdp_imageproc_plasma_setturbulence`. -/
structure Plasma where
  seed : Nat
  scale : Int
  fixed : Portable.IsFixed scale

namespace Portable

/-- `CLAMP16`, of a `float`. -/
def CLAMP16F (x : ℚ) : ℚ := if x > 0x7fff then 0x7fff else if x < -0x7fff then -0x7fff else x

theorem isFixed_CLAMP16F (x : ℚ) : IsFixed (truncate (CLAMP16F x)) := by
  refine truncate_mem ?_ ?_
  · unfold CLAMP16F
    push_cast
    split_ifs <;> linarith
  · unfold CLAMP16F
    push_cast
    split_ifs <;> linarith

end Portable

/-- `pdp_imageproc_plasma_setturbulence`. -/
def pdpImageprocPlasmaSetturbulence (seed : Nat) (f : ℚ) : Plasma where
  seed := seed
  scale := truncate (Portable.CLAMP16F (toFloat (f * 0x7fff)))
  fixed := Portable.isFixed_CLAMP16F _

/-- The image, and the number of values that `random` has given since `srandom`. -/
structure Drawing where
  image : Row S16
  calls : Nat

/-- What a sequence of random values is: `random k` is the result of call `k`, a `long`. -/
abbrev Random := Nat → Int

/-- `_rand_s16`. -/
def randS16 (random : Random) (d : Drawing) : S16 × Drawing :=
  (toS16 (random d.calls), { d with calls := d.calls + 1 })

/-- What `_new_color` passes to `CLAMP16`. -/
def randomColor (random : Random) (one two : S16) (scale : Int) (d : Drawing) :
    Option (Int × Drawing) := do
  let (r, d) := randS16 random d
  let product ← intMul scale r.toInt
  return (one.toInt / 2 + two.toInt / 2 + product / 2 ^ 16, d)

/-- `_new_color`.  `CLAMP16` is a macro, and there is a random value in what it repeats: each of its
tests is about another colour, and the one that it gives has not been tested. -/
def newColor (random : Random) (one two : S16) (scale : Int) (d : Drawing) :
    Option (S16 × Drawing) := do
  let (x, d) ← randomColor random one two scale d
  if x > 0x7fff then return (toS16 0x7fff, d)
  else
    let (x, d) ← randomColor random one two scale d
    if x < -0x7fff then return (toS16 (-0x7fff), d)
    else
      let (x, d) ← randomColor random one two scale d
      return (toS16 x, d)

/-- `_new_color(image[one], image[two], scale)`. -/
def colorBetween (random : Random) (one two scale : Int) (d : Drawing) :
    Option (S16 × Drawing) := do
  let a ← d.image.fetch one
  let b ← d.image.fetch two
  newColor random a b scale d

/-- `image[p] = v`. -/
def setPixel (p : Int) (v : S16) (d : Drawing) : Option Drawing := do
  let image ← d.image.assign p v
  return { d with image := image }

/-- `image[p] = _new_color(image[one], image[two], scale)`. -/
def setBetween (random : Random) (p one two scale : Int) (d : Drawing) : Option Drawing := do
  let (v, d) ← colorBetween random one two scale d
  setPixel p v d

/-- The same, under `if (flag)`. -/
def setBetweenIf (flag : Bool) (random : Random) (p one two scale : Int) (d : Drawing) :
    Option Drawing :=
  if flag then setBetween random p one two scale d else some d

/-- The coordinates of a subdivision, from the top left pixel. -/
structure Coordinates where
  topright : Int
  bottomleft : Int
  bottomright : Int
  left : Int
  bottom : Int
  right : Int
  center : Int
  deriving DecidableEq

/-- The declarations of `_plasma_subdiv` after `h1`. -/
def coordinates (w h s : Nat) : Option Coordinates := do
  let w0 := (w - 1) / 2
  let h0 := (h - 1) / 2
  let topright := toInt32 (w - 1 : Nat)
  let bottomleft := toInt32 (u32 (s * (h - 1)))
  let bottomright ← checkedS32 (bottomleft + topright)
  let left := toInt32 (u32 (s * h0))
  let bottom ← checkedS32 (bottomleft + w0)
  let right ← checkedS32 (topright + left)
  let center ← checkedS32 (left + w0)
  return ⟨topright, bottomleft, bottomright, left, bottom, right, center⟩

/-- The pixel in the middle, from those in the middle of the four edges. -/
def setCenter (random : Random) (p top left right bottom scale : Int) (d : Drawing) :
    Option Drawing := do
  let (a, d) ← colorBetween random top bottom scale d
  let (b, d) ← colorBetween random left right scale d
  setPixel p (toS16 (a.toInt / 2 + b.toInt / 2)) d

/-- `_plasma_subdiv`; `image` is the place of its top left pixel.  A rectangle has a pixel: with
`w` or `h` 0 there is no corner, and `w - 1` is not its last column. -/
def plasmaSubdiv (random : Random) (s : Nat) (scale : Int) (w h : Nat) (image : Int)
    (calcLeft calcTop : Bool) (d : Drawing) : Option Drawing :=
  let w0 := (w - 1) / 2
  let h0 := (h - 1) / 2
  let w1 := w - w0
  let h1 := h - h0
  let top : Int := w0
  if w = 0 ∨ h = 0 then none
  else do
    let c ← coordinates w h s
    if _hboth : (w - 1) / 2 ≠ 0 ∧ (h - 1) / 2 ≠ 0 then do
      let d ← setBetweenIf calcTop random (image + top) image (image + c.topright) scale d
      let d ← setBetweenIf calcLeft random (image + c.left) image (image + c.bottomleft) scale d
      let d ← setBetween random (image + c.right) (image + c.topright) (image + c.bottomright)
        scale d
      let d ← setBetween random (image + c.bottom) (image + c.bottomleft) (image + c.bottomright)
        scale d
      let d ← setCenter random (image + c.center) (image + top) (image + c.left)
        (image + c.right) (image + c.bottom) scale d
      let d ← plasmaSubdiv random s scale (w0 + 1) (h0 + 1) image true true d
      let d ← plasmaSubdiv random s scale w1 (h0 + 1) (image + top) false true d
      let d ← plasmaSubdiv random s scale (w0 + 1) h1 (image + c.left) true false d
      plasmaSubdiv random s scale w1 h1 (image + c.center) false false d
    else if _hrows : (h - 1) / 2 ≠ 0 then do
      let d ← setBetweenIf calcLeft random (image + c.left) image (image + c.bottomleft) scale d
      let d ← setBetween random (image + c.right) (image + c.topright) (image + c.bottomright)
        scale d
      let d ← plasmaSubdiv random s scale w (h0 + 1) image true false d
      plasmaSubdiv random s scale w h1 (image + c.left) true false d
    else if _hcolumns : (w - 1) / 2 ≠ 0 then do
      let d ← setBetweenIf calcTop random (image + top) image (image + c.topright) scale d
      let d ← setBetween random (image + c.bottom) (image + c.bottomleft) (image + c.bottomright)
        scale d
      let d ← plasmaSubdiv random s scale (w0 + 1) h image false true d
      plasmaSubdiv random s scale w1 h (image + top) false true d
    else some d
termination_by w + h

/-- `pdp_imageproc_plasma_process`; `random seed` is the sequence that `srandom(seed)` begins. -/
def pdpImageprocPlasmaProcess (random : Nat → Random) (x : Plasma) (width height : Nat)
    (image : Row S16) : Option (Plasma × Row S16) := do
  let random := random x.seed
  let (a, d) := randS16 random ⟨image, 0⟩
  let d ← setPixel 0 a d
  let (a, d) := randS16 random d
  let d ← setPixel (u32 (width + (2 ^ 32 - 1))) a d
  let (a, d) := randS16 random d
  let d ← setPixel (u32 (width * u32 (height + (2 ^ 32 - 1)))) a d
  let (a, d) := randS16 random d
  let d ← setPixel (u32 (width * height + (2 ^ 32 - 1))) a d
  let d ← plasmaSubdiv random width x.scale width height 0 true true d
  return ({ x with seed := ofInt32 (random d.calls) }, d.image)

/-! ## Places -/

/-- The pixel in column `x` and row `y`, from the pixel at `b`. -/
def pixelAt (s : Nat) (b : Int) (x y : Nat) : Int := b + (s * y + x : Nat)

section Places

variable {s w h x y x' y' : Nat} {b : Int} {c : Coordinates}

theorem pixelAt_zero (s : Nat) (b : Int) : pixelAt s b 0 0 = b := Int.add_zero b

theorem pixelAt_pixelAt : pixelAt s (pixelAt s b x y) x' y' = pixelAt s b (x + x') (y + y') := by
  unfold pixelAt
  push_cast
  ring

theorem pixelAt_row_column : pixelAt s (pixelAt s b 0 y) x 0 = pixelAt s b x y := by
  rw [pixelAt_pixelAt, Nat.zero_add, Nat.add_zero]

theorem pixelAt_column_row : pixelAt s (pixelAt s b x 0) 0 y = pixelAt s b x y := by
  rw [pixelAt_pixelAt, Nat.zero_add, Nat.add_zero]

theorem pixelAt_mono (hx : x ≤ x') (hy : y ≤ y') : pixelAt s b x y ≤ pixelAt s b x' y' := by
  have hrow : s * y ≤ s * y' := Nat.mul_le_mul_left s hy
  unfold pixelAt
  omega

/-- The coordinates are those of the pixels they are meant for. -/
structure Meant (c : Coordinates) (s w h : Nat) (b : Int) : Prop where
  top : b + ((w - 1) / 2 : Nat) = pixelAt s b ((w - 1) / 2) 0
  topright : b + c.topright = pixelAt s b (w - 1) 0
  bottomleft : b + c.bottomleft = pixelAt s b 0 (h - 1)
  bottomright : b + c.bottomright = pixelAt s b (w - 1) (h - 1)
  left : b + c.left = pixelAt s b 0 ((h - 1) / 2)
  bottom : b + c.bottom = pixelAt s b ((w - 1) / 2) (h - 1)
  right : b + c.right = pixelAt s b (w - 1) ((h - 1) / 2)
  center : b + c.center = pixelAt s b ((w - 1) / 2) ((h - 1) / 2)

/-- Nothing overflows where the last pixel has a place that is an `int`. -/
theorem exists_coordinates (b : Int) (hlast : s * (h - 1) + (w - 1) < 2 ^ 31) :
    ∃ c, coordinates w h s = some c ∧ Meant c s w h b := by
  have hrow : s * ((h - 1) / 2) ≤ s * (h - 1) := Nat.mul_le_mul_left s (Nat.div_le_self _ 2)
  have hcolumn : (w - 1) / 2 ≤ w - 1 := Nat.div_le_self _ 2
  have hright : toInt32 (w - 1 : Nat) = (w - 1 : Nat) := toInt32_of_nat_lt (by omega)
  have hbottom : toInt32 (u32 (s * (h - 1))) = (s * (h - 1) : Nat) := by
    rw [u32_eq_self (by omega), toInt32_of_nat_lt (by omega)]
  have hleft : toInt32 (u32 (s * ((h - 1) / 2))) = (s * ((h - 1) / 2) : Nat) := by
    rw [u32_eq_self (by omega), toInt32_of_nat_lt (by omega)]
  have hzero : s * 0 = 0 := Nat.mul_zero s
  refine ⟨⟨(w - 1 : Nat), (s * (h - 1) : Nat), (s * (h - 1) : Nat) + (w - 1 : Nat),
    (s * ((h - 1) / 2) : Nat), (s * (h - 1) : Nat) + ((w - 1) / 2 : Nat),
    (w - 1 : Nat) + (s * ((h - 1) / 2) : Nat),
    (s * ((h - 1) / 2) : Nat) + ((w - 1) / 2 : Nat)⟩, ?_, ?_⟩
  · unfold coordinates
    dsimp only
    rw [hright, hbottom, hleft, checkedS32_eq ⟨by omega, by omega⟩, Option.bind_eq_bind,
      Option.bind_some, checkedS32_eq ⟨by omega, by omega⟩, Option.bind_some,
      checkedS32_eq ⟨by omega, by omega⟩, Option.bind_some,
      checkedS32_eq ⟨by omega, by omega⟩, Option.bind_some]
    rfl
  · constructor <;> simp only [pixelAt] <;> omega

end Places

/-! ## What has been assigned -/

/-- The rectangle of `w` by `h` pixels at `b` is assigned. -/
def Filled (s w h : Nat) (b : Int) (r : Row S16) : Prop :=
  ∀ y < h, ∀ x < w, Assigned r (pixelAt s b x y)

/-- What `_plasma_subdiv` needs: the four corners, and the edges that it is not to compute. -/
structure Ready (s w h : Nat) (b : Int) (calcLeft calcTop : Bool) (r : Row S16) : Prop where
  topleft : Assigned r b
  topright : Assigned r (pixelAt s b (w - 1) 0)
  bottomleft : Assigned r (pixelAt s b 0 (h - 1))
  bottomright : Assigned r (pixelAt s b (w - 1) (h - 1))
  left : calcLeft = false → Filled s 1 h b r
  top : calcTop = false → Filled s w 1 b r

section Filling

variable {s w h x y n : Nat} {b p one two scale : Int} {r r' : Row S16} {d : Drawing}
  {calcLeft calcTop flag : Bool} {random : Random}

theorem Filled.mono (hfilled : Filled s w h b r) (hgrows : Grows r r') : Filled s w h b r' :=
  fun y hy x hx => hgrows.keeps _ (hfilled y hy x hx)

/-- Two rectangles side by side, with a column in common. -/
theorem Filled.beside (hleft : Filled s (n + 1) h b r)
    (hright : Filled s (w - n) h (pixelAt s b n 0) r) : Filled s w h b r := by
  intro y hy x hx
  rcases Nat.lt_or_ge x (n + 1) with hlt | hge
  · exact hleft y hy x hlt
  · have hpixel := hright y hy (x - n) (by omega)
    rw [pixelAt_pixelAt, Nat.zero_add, Nat.add_sub_cancel' (by omega)] at hpixel
    exact hpixel

/-- Two rectangles one above the other, with a row in common. -/
theorem Filled.above (htop : Filled s w (n + 1) b r)
    (hbottom : Filled s w (h - n) (pixelAt s b 0 n) r) : Filled s w h b r := by
  intro y hy x hx
  rcases Nat.lt_or_ge y (n + 1) with hlt | hge
  · exact htop y hlt x hx
  · have hpixel := hbottom (y - n) (by omega) x hx
    rw [pixelAt_pixelAt, Nat.zero_add, Nat.add_sub_cancel' (by omega)] at hpixel
    exact hpixel

theorem Filled.lastColumn (hfilled : Filled s (n + 1) h b r) :
    Filled s 1 h (pixelAt s b n 0) r := by
  intro y hy x hx
  rw [pixelAt_pixelAt, Nat.zero_add]
  exact hfilled y hy (n + x) (by omega)

theorem Filled.lastRow (hfilled : Filled s w (n + 1) b r) :
    Filled s w 1 (pixelAt s b 0 n) r := by
  intro y hy x hx
  rw [pixelAt_pixelAt, Nat.zero_add]
  exact hfilled (n + y) (by omega) x hx

namespace Ready

theorem mono (hready : Ready s w h b calcLeft calcTop r) (hgrows : Grows r r') :
    Ready s w h b calcLeft calcTop r' where
  topleft := hgrows.keeps _ hready.topleft
  topright := hgrows.keeps _ hready.topright
  bottomleft := hgrows.keeps _ hready.bottomleft
  bottomright := hgrows.keeps _ hready.bottomright
  left hcalc := (hready.left hcalc).mono hgrows
  top hcalc := (hready.top hcalc).mono hgrows

/-- A part of a rectangle, by the columns and rows of its corners. -/
theorem part {x₀ x₁ y₀ y₁ : Nat} (hx : x₀ + (w - 1) = x₁) (hy : y₀ + (h - 1) = y₁)
    (htopleft : Assigned r (pixelAt s b x₀ y₀)) (htopright : Assigned r (pixelAt s b x₁ y₀))
    (hbottomleft : Assigned r (pixelAt s b x₀ y₁)) (hbottomright : Assigned r (pixelAt s b x₁ y₁))
    (hleft : calcLeft = false → Filled s 1 h (pixelAt s b x₀ y₀) r)
    (htop : calcTop = false → Filled s w 1 (pixelAt s b x₀ y₀) r) :
    Ready s w h (pixelAt s b x₀ y₀) calcLeft calcTop r where
  topleft := htopleft
  topright := by rwa [pixelAt_pixelAt, hx, Nat.add_zero]
  bottomleft := by rwa [pixelAt_pixelAt, hy, Nat.add_zero]
  bottomright := by rwa [pixelAt_pixelAt, hx, hy]
  left := hleft
  top := htop

theorem inside (hready : Ready s w h b calcLeft calcTop r) (hx : x < w) (hy : y < h) :
    0 ≤ pixelAt s b x y ∧ pixelAt s b x y < r.length := by
  have hfirst : b ≤ pixelAt s b x y := by
    have hle := @pixelAt_mono s 0 0 x y b (Nat.zero_le x) (Nat.zero_le y)
    rwa [pixelAt_zero] at hle
  have hlast : pixelAt s b x y ≤ pixelAt s b (w - 1) (h - 1) :=
    pixelAt_mono (by omega) (by omega)
  have h0 := hready.topleft.1
  have hlt := hready.bottomright.lt
  omega

/-- The last pixel has a place that is an `int`. -/
theorem last_lt (hready : Ready s w h b calcLeft calcTop r) (hlen : r.length < 2 ^ 31) :
    s * (h - 1) + (w - 1) < 2 ^ 31 := by
  have h0 := hready.topleft.1
  have hlt := hready.bottomright.lt
  unfold pixelAt at hlt
  omega

/-- At most two columns: the first row is two corners. -/
theorem row_of_narrow (hready : Ready s w h b calcLeft calcTop r) (hw : w ≤ 2) :
    Filled s w 1 b r := by
  intro y hy x hx
  obtain rfl : y = 0 := by omega
  rcases Nat.eq_zero_or_pos x with rfl | hpos
  · rw [pixelAt_zero]
    exact hready.topleft
  · obtain rfl : x = w - 1 := by omega
    exact hready.topright

/-- At most two rows: the first column is two corners. -/
theorem column_of_low (hready : Ready s w h b calcLeft calcTop r) (hh : h ≤ 2) :
    Filled s 1 h b r := by
  intro y hy x hx
  obtain rfl : x = 0 := by omega
  rcases Nat.eq_zero_or_pos y with rfl | hpos
  · rw [pixelAt_zero]
    exact hready.topleft
  · obtain rfl : y = h - 1 := by omega
    exact hready.bottomleft

end Ready

/-! ## One step -/

/-- A colour can always be computed: the product is an `int`. -/
theorem randomColor_spec (hscale : Portable.IsFixed scale) (a c : S16) (d : Drawing) :
    ∃ x, randomColor random a c scale d = some (x, (randS16 random d).2) := by
  obtain ⟨hlo, hhi⟩ :=
    Portable.mul_bounds (Portable.isPixel_toInt (randS16 random d).1) hscale
  have hcomm := Int.mul_comm scale (randS16 random d).1.toInt
  have hmul : intMul scale (randS16 random d).1.toInt = some _ :=
    intMul_eq_some.mpr ⟨⟨by omega, by omega⟩, rfl⟩
  unfold randomColor
  dsimp only
  rw [hmul]
  exact ⟨_, rfl⟩

theorem newColor_spec (hscale : Portable.IsFixed scale) (a c : S16) :
    ∃ v d', newColor random a c scale d = some (v, d') ∧ d'.image = d.image := by
  obtain ⟨x₁, h₁⟩ := @randomColor_spec _ random hscale a c d
  obtain ⟨x₂, h₂⟩ := @randomColor_spec _ random hscale a c (randS16 random d).2
  obtain ⟨x₃, h₃⟩ := @randomColor_spec _ random hscale a c
    (randS16 random (randS16 random d).2).2
  unfold newColor
  rw [h₁, Option.bind_eq_bind, Option.bind_some]
  dsimp only
  split
  · exact ⟨_, _, rfl, rfl⟩
  · rw [h₂, Option.bind_some]
    dsimp only
    split
    · exact ⟨_, _, rfl, rfl⟩
    · rw [h₃]
      exact ⟨_, _, rfl, rfl⟩

theorem colorBetween_spec (hscale : Portable.IsFixed scale) (hone : Assigned d.image one)
    (htwo : Assigned d.image two) :
    ∃ v d', colorBetween random one two scale d = some (v, d') ∧ d'.image = d.image := by
  obtain ⟨a, ha⟩ := hone.fetch
  obtain ⟨c, hc⟩ := htwo.fetch
  obtain ⟨v, d', hv, himage⟩ := @newColor_spec _ d random hscale a c
  refine ⟨v, d', ?_, himage⟩
  rw [colorBetween, ha, Option.bind_eq_bind, Option.bind_some, hc]
  exact hv

theorem setPixel_spec (h0 : 0 ≤ p) (hp : p < d.image.length) (v : S16) :
    ∃ d', setPixel p v d = some d' ∧ Grows d.image d'.image ∧ Assigned d'.image p := by
  obtain ⟨image, himage, hgrows, hassigned⟩ := Row.assign_spec h0 hp v
  refine ⟨{ d with image := image }, ?_, hgrows, hassigned⟩
  rw [setPixel, himage]
  rfl

theorem setBetween_spec (hscale : Portable.IsFixed scale) (hone : Assigned d.image one)
    (htwo : Assigned d.image two) (hp : 0 ≤ p ∧ p < d.image.length) :
    ∃ d', setBetween random p one two scale d = some d' ∧ Grows d.image d'.image ∧
      Assigned d'.image p := by
  obtain ⟨v, d₁, hcolor, himage⟩ := @colorBetween_spec _ _ _ d random hscale hone htwo
  obtain ⟨d', hset, hgrows, hassigned⟩ := @setPixel_spec p d₁ hp.1 (himage ▸ hp.2) v
  refine ⟨d', ?_, himage ▸ hgrows, hassigned⟩
  rw [setBetween, hcolor]
  exact hset

/-- An edge that is not computed has been assigned already. -/
theorem setBetweenIf_spec (hscale : Portable.IsFixed scale) (hone : Assigned d.image one)
    (htwo : Assigned d.image two) (hp : 0 ≤ p ∧ p < d.image.length)
    (hskip : flag = false → Assigned d.image p) :
    ∃ d', setBetweenIf flag random p one two scale d = some d' ∧ Grows d.image d'.image ∧
      Assigned d'.image p := by
  cases flag with
  | true => exact setBetween_spec hscale hone htwo hp
  | false => exact ⟨d, rfl, Grows.refl _, hskip rfl⟩

theorem setCenter_spec {top left right bottom : Int} (hscale : Portable.IsFixed scale)
    (htop : Assigned d.image top) (hleft : Assigned d.image left)
    (hright : Assigned d.image right) (hbottom : Assigned d.image bottom)
    (hp : 0 ≤ p ∧ p < d.image.length) :
    ∃ d', setCenter random p top left right bottom scale d = some d' ∧
      Grows d.image d'.image ∧ Assigned d'.image p := by
  obtain ⟨a, d₁, hfirst, himage⟩ := @colorBetween_spec _ _ _ d random hscale htop hbottom
  obtain ⟨c, d₂, hsecond, himage'⟩ := @colorBetween_spec _ _ _ d₁ random hscale
    (himage ▸ hleft) (himage ▸ hright)
  have hsame : d₂.image = d.image := himage'.trans himage
  obtain ⟨d', hset, hgrows, hassigned⟩ :=
    @setPixel_spec p d₂ hp.1 (hsame ▸ hp.2) (toS16 (a.toInt / 2 + c.toInt / 2))
  refine ⟨d', ?_, hsame ▸ hgrows, hassigned⟩
  rw [setCenter, hfirst, Option.bind_eq_bind, Option.bind_some]
  dsimp only
  rw [hsecond]
  exact hset

end Filling

/-! ## Subdivision -/

/-- Rectangles of this size are filled. -/
def Subdivides (random : Random) (s : Nat) (scale : Int) (w h : Nat) : Prop :=
  ∀ (b : Int) (calcLeft calcTop : Bool) (d : Drawing), d.image.length < 2 ^ 31 →
    Ready s w h b calcLeft calcTop d.image →
      ∃ d', plasmaSubdiv random s scale w h b calcLeft calcTop d = some d' ∧
        Grows d.image d'.image ∧ Filled s w h b d'.image

section Subdivision

variable {random : Random} {s w h : Nat} {scale : Int}

/-- The corners of the four parts of a rectangle. -/
structure Divided (s w h : Nat) (b : Int) (r : Row S16) : Prop where
  corners : Ready s w h b true true r
  top : Assigned r (pixelAt s b ((w - 1) / 2) 0)
  left : Assigned r (pixelAt s b 0 ((h - 1) / 2))
  right : Assigned r (pixelAt s b (w - 1) ((h - 1) / 2))
  bottom : Assigned r (pixelAt s b ((w - 1) / 2) (h - 1))
  center : Assigned r (pixelAt s b ((w - 1) / 2) ((h - 1) / 2))

/-- The five pixels between the corners.  An edge that is not to be computed has its pixel. -/
theorem exists_divided {b : Int} {calcLeft calcTop : Bool} {d : Drawing}
    (hscale : Portable.IsFixed scale) (hw : (w - 1) / 2 ≠ 0) (hh : (h - 1) / 2 ≠ 0)
    (hready : Ready s w h b calcLeft calcTop d.image) : ∃ d₁ d₂ d₃ d₄ d',
      setBetweenIf calcTop random (pixelAt s b ((w - 1) / 2) 0) b (pixelAt s b (w - 1) 0) scale d =
        some d₁ ∧
      setBetweenIf calcLeft random (pixelAt s b 0 ((h - 1) / 2)) b (pixelAt s b 0 (h - 1)) scale
        d₁ = some d₂ ∧
      setBetween random (pixelAt s b (w - 1) ((h - 1) / 2)) (pixelAt s b (w - 1) 0)
        (pixelAt s b (w - 1) (h - 1)) scale d₂ = some d₃ ∧
      setBetween random (pixelAt s b ((w - 1) / 2) (h - 1)) (pixelAt s b 0 (h - 1))
        (pixelAt s b (w - 1) (h - 1)) scale d₃ = some d₄ ∧
      setCenter random (pixelAt s b ((w - 1) / 2) ((h - 1) / 2)) (pixelAt s b ((w - 1) / 2) 0)
        (pixelAt s b 0 ((h - 1) / 2)) (pixelAt s b (w - 1) ((h - 1) / 2))
        (pixelAt s b ((w - 1) / 2) (h - 1)) scale d₄ = some d' ∧
      Grows d.image d'.image ∧ Divided s w h b d'.image := by
  obtain ⟨d₁, heq₁, hgrows₁, htop⟩ := @setBetweenIf_spec (pixelAt s b ((w - 1) / 2) 0) _ _ _ d
    calcTop random hscale hready.topleft hready.topright (hready.inside (by omega) (by omega))
    fun hskip => hready.top hskip 0 Nat.one_pos _ (by omega)
  have hready₁ := hready.mono hgrows₁
  obtain ⟨d₂, heq₂, hgrows₂, hleft⟩ := @setBetweenIf_spec (pixelAt s b 0 ((h - 1) / 2)) _ _ _ d₁
    calcLeft random hscale hready₁.topleft hready₁.bottomleft
    (hready₁.inside (by omega) (by omega))
    fun hskip => hready₁.left hskip _ (by omega) 0 Nat.one_pos
  have hready₂ := hready₁.mono hgrows₂
  obtain ⟨d₃, heq₃, hgrows₃, hright⟩ := @setBetween_spec (pixelAt s b (w - 1) ((h - 1) / 2)) _ _ _
    d₂ random hscale hready₂.topright hready₂.bottomright (hready₂.inside (by omega) (by omega))
  have hready₃ := hready₂.mono hgrows₃
  obtain ⟨d₄, heq₄, hgrows₄, hbottom⟩ := @setBetween_spec (pixelAt s b ((w - 1) / 2) (h - 1)) _ _ _
    d₃ random hscale hready₃.bottomleft hready₃.bottomright
    (hready₃.inside (by omega) (by omega))
  have hready₄ := hready₃.mono hgrows₄
  have htop₄ := ((hgrows₂.trans hgrows₃).trans hgrows₄).keeps _ htop
  have hleft₄ := (hgrows₃.trans hgrows₄).keeps _ hleft
  have hright₄ := hgrows₄.keeps _ hright
  obtain ⟨d', heq₅, hgrows₅, hcenter⟩ :=
    @setCenter_spec (pixelAt s b ((w - 1) / 2) ((h - 1) / 2)) _ d₄ random _ _ _ _ hscale
      htop₄ hleft₄ hright₄ hbottom (hready₄.inside (by omega) (by omega))
  have hready' := hready₄.mono hgrows₅
  refine ⟨d₁, d₂, d₃, d₄, d', heq₁, heq₂, heq₃, heq₄, heq₅,
    (((hgrows₁.trans hgrows₂).trans hgrows₃).trans hgrows₄).trans hgrows₅,
    ⟨?_, hgrows₅.keeps _ htop₄, hgrows₅.keeps _ hleft₄, hgrows₅.keeps _ hright₄,
      hgrows₅.keeps _ hbottom, hcenter⟩⟩
  exact ⟨hready'.topleft, hready'.topright, hready'.bottomleft, hready'.bottomright,
    (fun hskip => nomatch hskip), (fun hskip => nomatch hskip)⟩

/-- The four parts, in the order of the calls: each has the edges that it does not compute from
the parts before it. -/
theorem exists_parts {b : Int} {d : Drawing} (hlen : d.image.length < 2 ^ 31)
    (hdivided : Divided s w h b d.image)
    (h00 : Subdivides random s scale ((w - 1) / 2 + 1) ((h - 1) / 2 + 1))
    (h10 : Subdivides random s scale (w - (w - 1) / 2) ((h - 1) / 2 + 1))
    (h01 : Subdivides random s scale ((w - 1) / 2 + 1) (h - (h - 1) / 2))
    (h11 : Subdivides random s scale (w - (w - 1) / 2) (h - (h - 1) / 2)) : ∃ d₁ d₂ d₃ d',
      plasmaSubdiv random s scale ((w - 1) / 2 + 1) ((h - 1) / 2 + 1) b true true d = some d₁ ∧
      plasmaSubdiv random s scale (w - (w - 1) / 2) ((h - 1) / 2 + 1)
        (pixelAt s b ((w - 1) / 2) 0) false true d₁ = some d₂ ∧
      plasmaSubdiv random s scale ((w - 1) / 2 + 1) (h - (h - 1) / 2)
        (pixelAt s b 0 ((h - 1) / 2)) true false d₂ = some d₃ ∧
      plasmaSubdiv random s scale (w - (w - 1) / 2) (h - (h - 1) / 2)
        (pixelAt s b ((w - 1) / 2) ((h - 1) / 2)) false false d₃ = some d' ∧
      Grows d.image d'.image ∧ Filled s w h b d'.image := by
  obtain ⟨hcorners, htop, hleft, hright, hbottom, hcenter⟩ := hdivided
  have hcorner : Assigned d.image (pixelAt s b 0 0) := (pixelAt_zero s b).symm ▸ hcorners.topleft
  have hpart₁ : Ready s ((w - 1) / 2 + 1) ((h - 1) / 2 + 1) (pixelAt s b 0 0) true true d.image :=
    Ready.part (Nat.zero_add _) (Nat.zero_add _) hcorner htop hleft hcenter
      (fun hskip => nomatch hskip) (fun hskip => nomatch hskip)
  rw [pixelAt_zero] at hpart₁
  obtain ⟨d₁, heq₁, hgrows₁, hfilled₁⟩ := h00 b true true d hlen hpart₁
  have hpart₂ : Ready s (w - (w - 1) / 2) ((h - 1) / 2 + 1) (pixelAt s b ((w - 1) / 2) 0) false true
      d₁.image :=
    Ready.part (by omega) (Nat.zero_add _) (hgrows₁.keeps _ htop)
      (hgrows₁.keeps _ hcorners.topright) (hgrows₁.keeps _ hcenter) (hgrows₁.keeps _ hright)
      (fun _ => hfilled₁.lastColumn) (fun hskip => nomatch hskip)
  obtain ⟨d₂, heq₂, hgrows₂, hfilled₂⟩ :=
    h10 _ false true d₁ (hgrows₁.length.trans_lt hlen) hpart₂
  have hgrows₁₂ := hgrows₁.trans hgrows₂
  have hpart₃ : Ready s ((w - 1) / 2 + 1) (h - (h - 1) / 2) (pixelAt s b 0 ((h - 1) / 2)) true false
      d₂.image :=
    Ready.part (Nat.zero_add _) (by omega) (hgrows₁₂.keeps _ hleft) (hgrows₁₂.keeps _ hcenter)
      (hgrows₁₂.keeps _ hcorners.bottomleft) (hgrows₁₂.keeps _ hbottom)
      (fun hskip => nomatch hskip) (fun _ => (hfilled₁.mono hgrows₂).lastRow)
  obtain ⟨d₃, heq₃, hgrows₃, hfilled₃⟩ :=
    h01 _ true false d₂ (hgrows₁₂.length.trans_lt hlen) hpart₃
  have hgrows₁₃ := hgrows₁₂.trans hgrows₃
  have hpart₄ : Ready s (w - (w - 1) / 2) (h - (h - 1) / 2)
      (pixelAt s b ((w - 1) / 2) ((h - 1) / 2)) false false d₃.image :=
    Ready.part (by omega) (by omega) (hgrows₁₃.keeps _ hcenter) (hgrows₁₃.keeps _ hright)
      (hgrows₁₃.keeps _ hbottom) (hgrows₁₃.keeps _ hcorners.bottomright)
      (fun _ => pixelAt_row_column ▸ hfilled₃.lastColumn)
      (fun _ => pixelAt_column_row ▸ (hfilled₂.mono hgrows₃).lastRow)
  obtain ⟨d', heq₄, hgrows₄, hfilled₄⟩ :=
    h11 _ false false d₃ (hgrows₁₃.length.trans_lt hlen) hpart₄
  have hupper := (hfilled₁.mono ((hgrows₂.trans hgrows₃).trans hgrows₄)).beside
    (hfilled₂.mono (hgrows₃.trans hgrows₄))
  have hlower := (hfilled₃.mono hgrows₄).beside (pixelAt_row_column ▸ hfilled₄)
  exact ⟨d₁, d₂, d₃, d', heq₁, heq₂, heq₃, heq₄, hgrows₁₃.trans hgrows₄, hupper.above hlower⟩

theorem subdivides_both (hscale : Portable.IsFixed scale) (hw : (w - 1) / 2 ≠ 0)
    (hh : (h - 1) / 2 ≠ 0)
    (h00 : Subdivides random s scale ((w - 1) / 2 + 1) ((h - 1) / 2 + 1))
    (h10 : Subdivides random s scale (w - (w - 1) / 2) ((h - 1) / 2 + 1))
    (h01 : Subdivides random s scale ((w - 1) / 2 + 1) (h - (h - 1) / 2))
    (h11 : Subdivides random s scale (w - (w - 1) / 2) (h - (h - 1) / 2)) :
    Subdivides random s scale w h := by
  intro b calcLeft calcTop d hlen hready
  obtain ⟨c, hc, hmeant⟩ := exists_coordinates b (hready.last_lt hlen)
  obtain ⟨d₁, d₂, d₃, d₄, d₅, heq₁, heq₂, heq₃, heq₄, heq₅, hbefore, hdivided⟩ :=
    @exists_divided random s w h scale b calcLeft calcTop d hscale hw hh hready
  obtain ⟨d₆, d₇, d₈, d', heq₆, heq₇, heq₈, heq', hgrows, hfilled⟩ :=
    exists_parts (hbefore.length.trans_lt hlen) hdivided h00 h10 h01 h11
  refine ⟨d', ?_, hbefore.trans hgrows, hfilled⟩
  rw [plasmaSubdiv]
  simp only [hc, Option.bind_eq_bind, Option.bind_some, dif_pos (And.intro hw hh),
    if_neg (show ¬(w = 0 ∨ h = 0) by omega), hmeant.top, hmeant.topright, hmeant.bottomleft,
    hmeant.bottomright, hmeant.left, hmeant.bottom, hmeant.right, hmeant.center]
  rw [heq₁, Option.bind_some, heq₂, Option.bind_some, heq₃, Option.bind_some, heq₄,
    Option.bind_some, heq₅, Option.bind_some, heq₆, Option.bind_some, heq₇, Option.bind_some,
    heq₈, Option.bind_some, heq']

theorem subdivides_rows (hscale : Portable.IsFixed scale) (hw : (w - 1) / 2 = 0) (hw0 : w ≠ 0)
    (hh : (h - 1) / 2 ≠ 0) (h0 : Subdivides random s scale w ((h - 1) / 2 + 1))
    (h1 : Subdivides random s scale w (h - (h - 1) / 2)) : Subdivides random s scale w h := by
  intro b calcLeft calcTop d hlen hready
  obtain ⟨c, hc, hmeant⟩ := exists_coordinates b (hready.last_lt hlen)
  rw [plasmaSubdiv]
  simp only [hc, Option.bind_eq_bind, Option.bind_some,
    dif_neg (show ¬((w - 1) / 2 ≠ 0 ∧ (h - 1) / 2 ≠ 0) by omega), dif_pos hh,
    if_neg (show ¬(w = 0 ∨ h = 0) by omega), hmeant.topright, hmeant.bottomleft,
    hmeant.bottomright, hmeant.left, hmeant.right]
  obtain ⟨d₁, heq₁, hgrows₁, hleft⟩ := @setBetweenIf_spec (pixelAt s b 0 ((h - 1) / 2)) _ _ _ d
    calcLeft random hscale hready.topleft hready.bottomleft
    (hready.inside (by omega) (by omega)) fun hskip => hready.left hskip _ (by omega) 0 Nat.one_pos
  have hready₁ := hready.mono hgrows₁
  obtain ⟨d₂, heq₂, hgrows₂, hright⟩ := @setBetween_spec (pixelAt s b (w - 1) ((h - 1) / 2)) _ _ _
    d₁ random hscale hready₁.topright hready₁.bottomright (hready₁.inside (by omega) (by omega))
  have hready₂ := hready₁.mono hgrows₂
  have hleft₂ := hgrows₂.keeps _ hleft
  have hbefore := hgrows₁.trans hgrows₂
  have hcorner : Assigned d₂.image (pixelAt s b 0 0) := (pixelAt_zero s b).symm ▸ hready₂.topleft
  have hpart₁ : Ready s w ((h - 1) / 2 + 1) (pixelAt s b 0 0) true false d₂.image :=
    Ready.part (Nat.zero_add _) (Nat.zero_add _) hcorner hready₂.topright hleft₂ hright
      (fun hskip => nomatch hskip)
      (fun _ => (pixelAt_zero s b).symm ▸ hready₂.row_of_narrow (by omega))
  rw [pixelAt_zero] at hpart₁
  obtain ⟨d₃, heq₃, hgrows₃, hfilled₁⟩ :=
    h0 b true false d₂ (hbefore.length.trans_lt hlen) hpart₁
  have hpart₂ : Ready s w (h - (h - 1) / 2) (pixelAt s b 0 ((h - 1) / 2)) true false d₃.image :=
    Ready.part (Nat.zero_add _) (by omega) (hgrows₃.keeps _ hleft₂) (hgrows₃.keeps _ hright)
      (hgrows₃.keeps _ hready₂.bottomleft) (hgrows₃.keeps _ hready₂.bottomright)
      (fun hskip => nomatch hskip) (fun _ => hfilled₁.lastRow)
  obtain ⟨d₄, heq₄, hgrows₄, hfilled₂⟩ :=
    h1 _ true false d₃ ((hbefore.trans hgrows₃).length.trans_lt hlen) hpart₂
  refine ⟨d₄, ?_, (hbefore.trans hgrows₃).trans hgrows₄, (hfilled₁.mono hgrows₄).above hfilled₂⟩
  rw [heq₁, Option.bind_some, heq₂, Option.bind_some, heq₃, Option.bind_some, heq₄]

theorem subdivides_columns (hscale : Portable.IsFixed scale) (hh : (h - 1) / 2 = 0) (hh0 : h ≠ 0)
    (hw : (w - 1) / 2 ≠ 0) (h0 : Subdivides random s scale ((w - 1) / 2 + 1) h)
    (h1 : Subdivides random s scale (w - (w - 1) / 2) h) : Subdivides random s scale w h := by
  intro b calcLeft calcTop d hlen hready
  obtain ⟨c, hc, hmeant⟩ := exists_coordinates b (hready.last_lt hlen)
  rw [plasmaSubdiv]
  simp only [hc, Option.bind_eq_bind, Option.bind_some, dif_pos hw,
    dif_neg (show ¬((w - 1) / 2 ≠ 0 ∧ (h - 1) / 2 ≠ 0) by omega),
    dif_neg (show ¬(h - 1) / 2 ≠ 0 by omega), if_neg (show ¬(w = 0 ∨ h = 0) by omega),
    hmeant.top, hmeant.topright, hmeant.bottomleft, hmeant.bottomright, hmeant.bottom]
  obtain ⟨d₁, heq₁, hgrows₁, htop⟩ := @setBetweenIf_spec (pixelAt s b ((w - 1) / 2) 0) _ _ _ d
    calcTop random hscale hready.topleft hready.topright (hready.inside (by omega) (by omega))
    fun hskip => hready.top hskip 0 Nat.one_pos _ (by omega)
  have hready₁ := hready.mono hgrows₁
  obtain ⟨d₂, heq₂, hgrows₂, hbottom⟩ := @setBetween_spec (pixelAt s b ((w - 1) / 2) (h - 1)) _ _ _
    d₁ random hscale hready₁.bottomleft hready₁.bottomright
    (hready₁.inside (by omega) (by omega))
  have hready₂ := hready₁.mono hgrows₂
  have htop₂ := hgrows₂.keeps _ htop
  have hbefore := hgrows₁.trans hgrows₂
  have hcorner : Assigned d₂.image (pixelAt s b 0 0) := (pixelAt_zero s b).symm ▸ hready₂.topleft
  have hpart₁ : Ready s ((w - 1) / 2 + 1) h (pixelAt s b 0 0) false true d₂.image :=
    Ready.part (Nat.zero_add _) (Nat.zero_add _) hcorner htop₂ hready₂.bottomleft hbottom
      (fun _ => (pixelAt_zero s b).symm ▸ hready₂.column_of_low (by omega))
      (fun hskip => nomatch hskip)
  rw [pixelAt_zero] at hpart₁
  obtain ⟨d₃, heq₃, hgrows₃, hfilled₁⟩ :=
    h0 b false true d₂ (hbefore.length.trans_lt hlen) hpart₁
  have hpart₂ : Ready s (w - (w - 1) / 2) h (pixelAt s b ((w - 1) / 2) 0) false true d₃.image :=
    Ready.part (by omega) (Nat.zero_add _) (hgrows₃.keeps _ htop₂)
      (hgrows₃.keeps _ hready₂.topright) (hgrows₃.keeps _ hbottom)
      (hgrows₃.keeps _ hready₂.bottomright) (fun _ => hfilled₁.lastColumn)
      (fun hskip => nomatch hskip)
  obtain ⟨d₄, heq₄, hgrows₄, hfilled₂⟩ :=
    h1 _ false true d₃ ((hbefore.trans hgrows₃).length.trans_lt hlen) hpart₂
  refine ⟨d₄, ?_, (hbefore.trans hgrows₃).trans hgrows₄, (hfilled₁.mono hgrows₄).beside hfilled₂⟩
  rw [heq₁, Option.bind_some, heq₂, Option.bind_some, heq₃, Option.bind_some, heq₄]

/-- A rectangle of at most two by two pixels has only corners. -/
theorem subdivides_corners (hw : (w - 1) / 2 = 0) (hw0 : w ≠ 0) (hh : (h - 1) / 2 = 0)
    (hh0 : h ≠ 0) : Subdivides random s scale w h := by
  intro b calcLeft calcTop d hlen hready
  obtain ⟨c, hc, -⟩ := exists_coordinates b (hready.last_lt hlen)
  refine ⟨d, ?_, Grows.refl _, fun y hy x hx => ?_⟩
  · rw [plasmaSubdiv]
    simp only [hc, Option.bind_eq_bind, Option.bind_some,
      dif_neg (show ¬((w - 1) / 2 ≠ 0 ∧ (h - 1) / 2 ≠ 0) by omega),
      dif_neg (show ¬(h - 1) / 2 ≠ 0 by omega), dif_neg (show ¬(w - 1) / 2 ≠ 0 by omega),
      if_neg (show ¬(w = 0 ∨ h = 0) by omega)]
  · rcases Nat.eq_zero_or_pos y with rfl | hpos
    · exact hready.row_of_narrow (by omega) 0 Nat.one_pos x hx
    · rcases Nat.eq_zero_or_pos x with rfl | hpos'
      · exact hready.column_of_low (by omega) y hy 0 Nat.one_pos
      · obtain rfl : x = w - 1 := by omega
        obtain rfl : y = h - 1 := by omega
        exact hready.bottomright

theorem subdivides (hscale : Portable.IsFixed scale) (hw : w ≠ 0) (hh : h ≠ 0) :
    Subdivides random s scale w h := by
  induction hn : w + h using Nat.strong_induction_on generalizing w h with
  | _ n ih =>
      subst hn
      by_cases hw0 : (w - 1) / 2 = 0 <;> by_cases hh0 : (h - 1) / 2 = 0
      · exact subdivides_corners hw0 hw hh0 hh
      · exact subdivides_rows hscale hw0 hw hh0 (ih _ (by omega) (by omega) (by omega) rfl)
          (ih _ (by omega) (by omega) (by omega) rfl)
      · exact subdivides_columns hscale hh0 hh hw0 (ih _ (by omega) (by omega) (by omega) rfl)
          (ih _ (by omega) (by omega) (by omega) rfl)
      · exact subdivides_both hscale hw0 hh0 (ih _ (by omega) (by omega) (by omega) rfl)
          (ih _ (by omega) (by omega) (by omega) rfl) (ih _ (by omega) (by omega) (by omega) rfl)
          (ih _ (by omega) (by omega) (by omega) rfl)

end Subdivision

/-! ## The whole image -/

/-- The pixels of a data area, before the call has assigned any. -/
def unassigned (data : DataArea) : Row S16 := List.replicate (data.size / 2) none

section Whole

variable {w h : Nat} {data : DataArea}

/-- The four corners of the image, where the routine assigns them. -/
theorem corner_indices (hw : 1 ≤ w) (hh : 1 ≤ h) (harea : w * h < 2 ^ 31) :
    (u32 (w + (2 ^ 32 - 1)) : Int) = pixelAt w 0 (w - 1) 0 ∧
      (u32 (w * u32 (h + (2 ^ 32 - 1))) : Int) = pixelAt w 0 0 (h - 1) ∧
      (u32 (w * h + (2 ^ 32 - 1)) : Int) = pixelAt w 0 (w - 1) (h - 1) := by
  have hwle : w ≤ w * h := Nat.le_mul_of_pos_right w hh
  have hhle : h ≤ w * h := Nat.le_mul_of_pos_left h hw
  have hrows : w * (h - 1) + w = w * h := by
    rw [← Nat.mul_succ, Nat.succ_eq_add_one, Nat.sub_add_cancel hh]
  have hpred : ∀ n, 1 ≤ n → n < 2 ^ 31 → u32 (n + (2 ^ 32 - 1)) = n - 1 := by
    intro n hn hlt
    unfold u32
    omega
  have hzero : w * 0 = 0 := Nat.mul_zero w
  rw [hpred w hw (by omega), hpred h hh (by omega), hpred _ (by omega) harea,
    u32_eq_self (n := w * (h - 1)) (by omega)]
  unfold pixelAt
  exact ⟨by omega, by omega, by omega⟩

/-- The image is filled: the routine returns, with no access outside the image and no read of a
pixel that it has not assigned, and it has assigned every pixel. -/
theorem plasma_spec (random : Nat → Random) (x : Plasma) (hw : 1 ≤ w) (hh : 1 ≤ h)
    (hdata : data.size = 2 * (w * h)) : ∃ x' out,
      pdpImageprocPlasmaProcess random x w h (unassigned data) = some (x', out) ∧
        out.length = w * h ∧ ∀ pixel ∈ out, pixel.isSome := by
  have hsize : data.size + pdpHeaderSize < 2 ^ 31 := data.size_lt
  have hlen : (unassigned data).length = w * h := by
    rw [unassigned, List.length_replicate, hdata, Nat.mul_div_cancel_left _ Nat.two_pos]
  have harea : w * h < 2 ^ 31 := by omega
  have hpos : 0 < w * h := Nat.mul_pos hw hh
  have hplace : ∀ x < w, ∀ y < h, 0 ≤ pixelAt w 0 x y ∧ pixelAt w 0 x y < (w * h : Nat) := by
    intro x hx y hy
    have hlt := add_mul_lt hy hx
    unfold pixelAt
    omega
  obtain ⟨htr, hbl, hbr⟩ := corner_indices hw hh harea
  unfold pdpImageprocPlasmaProcess
  simp only [randS16, htr, hbl, hbr, Option.bind_eq_bind]
  obtain ⟨d₁, heq₁, hgrows₁, h₁⟩ := @setPixel_spec 0 ⟨unassigned data, 0 + 1⟩ (le_refl 0)
    (by show (0 : Int) < (unassigned data).length; omega) (toS16 (random x.seed 0))
  have hlen₁ : d₁.image.length = w * h := hgrows₁.length.trans hlen
  obtain ⟨d₂, heq₂, hgrows₂, h₂⟩ := @setPixel_spec (pixelAt w 0 (w - 1) 0)
    { d₁ with calls := d₁.calls + 1 } (hplace _ (by omega) _ (by omega)).1
    (hlen₁ ▸ (hplace _ (by omega) _ (by omega)).2) (toS16 (random x.seed d₁.calls))
  have hlen₂ : d₂.image.length = w * h := hgrows₂.length.trans hlen₁
  obtain ⟨d₃, heq₃, hgrows₃, h₃⟩ := @setPixel_spec (pixelAt w 0 0 (h - 1))
    { d₂ with calls := d₂.calls + 1 } (hplace _ (by omega) _ (by omega)).1
    (hlen₂ ▸ (hplace _ (by omega) _ (by omega)).2) (toS16 (random x.seed d₂.calls))
  have hlen₃ : d₃.image.length = w * h := hgrows₃.length.trans hlen₂
  obtain ⟨d₄, heq₄, hgrows₄, h₄⟩ := @setPixel_spec (pixelAt w 0 (w - 1) (h - 1))
    { d₃ with calls := d₃.calls + 1 } (hplace _ (by omega) _ (by omega)).1
    (hlen₃ ▸ (hplace _ (by omega) _ (by omega)).2) (toS16 (random x.seed d₃.calls))
  have hlen₄ : d₄.image.length = w * h := hgrows₄.length.trans hlen₃
  have hready : Ready w w h 0 true true d₄.image :=
    ⟨((hgrows₂.trans hgrows₃).trans hgrows₄).keeps _ h₁, (hgrows₃.trans hgrows₄).keeps _ h₂,
      hgrows₄.keeps _ h₃, h₄, (fun hskip => nomatch hskip), (fun hskip => nomatch hskip)⟩
  obtain ⟨d₅, heq₅, hgrows₅, hfilled⟩ := subdivides x.fixed (by omega) (by omega) 0 true true d₄
    (hlen₄ ▸ harea) hready
  have hlen₅ : d₅.image.length = w * h := hgrows₅.length.trans hlen₄
  refine ⟨{ x with seed := ofInt32 (random x.seed d₅.calls) }, d₅.image, ?_, hlen₅,
    Row.isSome_of_assigned fun i hi => ?_⟩
  · rw [heq₁, Option.bind_some, heq₂, Option.bind_some, heq₃, Option.bind_some, heq₄,
      Option.bind_some, heq₅]
    rfl
  · rw [hlen₅] at hi
    have hpixel := hfilled (i / w) (Nat.div_lt_of_lt_mul hi) (i % w) (Nat.mod_lt i hw)
    rwa [pixelAt, Nat.div_add_mod, Int.zero_add] at hpixel

theorem plasma_spec_3x2 : ∃ x' out,
    pdpImageprocPlasmaProcess (fun _ k => k) (pdpImageprocPlasmaSetturbulence 0 (1 / 10)) 3 2
        (unassigned ⟨List.replicate 12 0, by decide⟩) = some (x', out) ∧
      out.length = 3 * 2 ∧ ∀ pixel ∈ out, pixel.isSome :=
  plasma_spec (fun _ k => k) (pdpImageprocPlasmaSetturbulence 0 (1 / 10)) (by decide) (by decide)
    rfl

end Whole

end PureDataPacket
