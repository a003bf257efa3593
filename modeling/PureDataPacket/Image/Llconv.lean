/-
# `PureDataPacket.Image.Llconv` — low level format conversion

The routines of `pdp_llconv.c` and `pdp_llconv_portable.c` that the conversion
methods of the image and bitmap types call, as lists of steps.  `src` and `dst`
never overlap, so a loop body that loads a few elements and then stores a few
is one step for each store.

An `int` that comes from the dimensions is checked where it is computed; `none`
says that the computation has no defined result.  Indices are exact: one that
left the range of `int` would long have left the buffer.  Values are exact as
well: what the loops compute from 8 or 16 bit samples stays far below `2 ^ 31`.

Not modelled: the camera formats, which no method asks for, and the MMX
versions.
-/
import PureDataPacket.Lib.Routine

namespace PureDataPacket

/-! ## Loops and arithmetic -/

/-- `for (i = 0; i < bound; i += step)` with an `int` counter, which leaves its
range if it starts below `bound` and does not grow.  The body is given the
number of the iteration. -/
def forRows (bound step : Int) (body : Nat → List Step) : Option (List Step) :=
  if 0 < bound ∧ step ≤ 0 then none else some (stepsFor (iterations bound step) body)

/-- `CLAMP8`. -/
def clamp8 (x : Int) : Int := if x < 0 then 0 else if x > 255 then 255 else x

/-- `CLAMP16`. -/
def clamp16 (x : Int) : Int := if x < -0x7fff then -0x7fff else if x > 0x7fff then 0x7fff else x

/-- `FP(x)`, for `x` in thousandths: the conversion to `int` cuts the fraction off. -/
def fp (x : Int) : Int := (x * 256).tdiv 1000

/-! ## Planar to planar -/

/-- `pixel_unpack_portable_u8s16_y`. -/
def pixelUnpackU8s16Y (nbpixels : Nat) : List Step :=
  mapSteps u8 s16 nbpixels fun v => v * 2 ^ 7

/-- `pixel_unpack_portable_u8s16_uv`.  To flip the top bit of 16 is to add it. -/
def pixelUnpackU8s16Uv (nbpixels : Nat) : List Step :=
  mapSteps u8 s16 nbpixels fun v => (v * 2 ^ 8 + 2 ^ 15) % 2 ^ 16

/-- `pixel_pack_portable_s16u8_y`. -/
def pixelPackS16u8Y (nbpixels : Nat) : List Step :=
  mapSteps s16 u8 nbpixels fun v => clamp8 (v / 2 ^ 7)

/-- `pixel_pack_portable_s16u8_uv`. -/
def pixelPackS16u8Uv (nbpixels : Nat) : List Step :=
  mapSteps s16 u8 nbpixels fun v => (v + 2 ^ 15) % 2 ^ 16 / 2 ^ 8

/-- `llconv_grey_s16u8`. -/
def llconvGreyS16u8 (nbpixels : Nat) : List Step := pixelPackS16u8Y nbpixels

/-- `llconv_yvu_planar_s16u8`. -/
def llconvYvuPlanarS16u8 (nbpixels : Nat) : List Step :=
  pixelPackS16u8Y nbpixels ++
    (pixelPackS16u8Uv (nbpixels / 2)).map (.shift nbpixels nbpixels)

/-- `llconv_yvu_planar_u8s16`.  The two callees take an `unsigned int`. -/
def llconvYvuPlanarU8s16 (nbpixels : Int) : List Step :=
  pixelUnpackU8s16Y (ofInt32 nbpixels) ++
    (pixelUnpackU8s16Uv (ofInt32 (nbpixels / 2))).map (.shift nbpixels nbpixels)

/-! ## Planar to packed -/

/-- One pixel of `llconv_yvu16planar2rgbpacked`: its luma is at `lum`, the
chroma of its block at `v` and `u`, and its colours go to `rgb`. -/
def llconvRgbPixel (lum v u rgb : Int) : List Step :=
  let y1 y := fp 1164 * (y * 2) - 16 * 256 * 256
  [⟨s16, u8, [lum, v], rgb + 0, fun
      | [y, v] => clamp8 ((fp 1596 * v + y1 y) / 2 ^ 16)
      | _ => 0⟩,
    ⟨s16, u8, [lum, v, u], rgb + 1, fun
      | [y, v, u] => clamp8 ((fp (-813) * v + fp (-391) * u + y1 y) / 2 ^ 16)
      | _ => 0⟩,
    ⟨s16, u8, [lum, u], rgb + 2, fun
      | [y, u] => clamp8 ((fp 2018 * u + y1 y) / 2 ^ 16)
      | _ => 0⟩]

/-- The body of the loops of `llconv_yvu16planar2rgbpacked`. -/
def llconvRgbBlock (w size yoff xoff : Int) : List Step :=
  let voffset := size
  let uoffset := size + size / 4
  let rgboff := 3 * (xoff + yoff)
  let rgbw := w * 3
  let lumoff := xoff + yoff
  let chromoff := xoff / 2 + yoff / 4
  let v := voffset + chromoff
  let u := uoffset + chromoff
  llconvRgbPixel lumoff v u rgboff ++ llconvRgbPixel (lumoff + 1) v u (rgboff + 3) ++
    llconvRgbPixel (lumoff + w) v u (rgboff + rgbw) ++
    llconvRgbPixel (lumoff + w + 1) v u (rgboff + rgbw + 3)

/-- `llconv_yvu16planar2rgbpacked`. -/
def llconvYvu16planar2rgbpacked (w h : Int) : Option (List Step) := do
  let size ← intMul w h
  let _rgbw ← intMul w 3
  forRows size (w * 2) fun row => stepsUpTo w 2 fun xoff =>
    llconvRgbBlock w size (w * 2 * row) xoff

/-! ## Packed to planar -/

def rgb2y (r g b : Int) : Int := fp 257 * r + fp 504 * g + fp 98 * b + 16 * 256

/-- Its chroma, without the offset of 128. -/
def rgb2v (r g b : Int) : Int := fp 439 * r - fp 368 * g - fp 71 * b

def rgb2u (r g b : Int) : Int := -(fp 148 * r) - fp 291 * g + fp 439 * b

/-- Where the components of a packed pixel are. -/
structure RgbLayout where
  ir : Int
  ig : Int
  ib : Int
  stride : Int

/-- The components of the pixel at `k`. -/
def RgbLayout.at (p : RgbLayout) (k : Int) : List Int := [k + p.ir, k + p.ig, k + p.ib]

/-- A store of `luma`, computed from the pixel at `k`. -/
def llconvLuma (target : Format) (luma : Int → Int) (p : RgbLayout) (k i : Int) : Step :=
  ⟨u8, target, p.at k, i, fun
    | [r, g, b] => luma (rgb2y r g b)
    | _ => 0⟩

/-- A store of `chroma`, computed from the pixels at `k` and after it. -/
def llconvChroma (target : Format) (chroma : Int → Int) (rgb2c : Int → Int → Int → Int)
    (p : RgbLayout) (k i : Int) : Step :=
  ⟨u8, target, p.at k ++ p.at (k + p.stride), i, fun
    | [r, g, b, r', g', b'] => chroma (rgb2c r g b + rgb2c r' g' b')
    | _ => 0⟩

/-- The body of the loops of `llconv_rgb2yvu_planar16sub_indexed` and of
`llconv_rgb2yvu_planar8sub`.  The chroma of the third pixel is assigned, not
added, so what the first two have contributed is lost. -/
def llconvYvuBlock (target : Format) (luma chroma : Int → Int) (p : RgbLayout)
    (w size j i : Int) : List Step :=
  let voffset := size
  let uoffset := size + size / 4
  let loffset := w * p.stride
  let k := p.stride * j + p.stride * i
  [llconvLuma target luma p k (i + j),
    llconvLuma target luma p (k + p.stride) (i + j + 1),
    llconvLuma target luma p (loffset + k) (w + i + j),
    llconvLuma target luma p (loffset + k + p.stride) (w + i + j + 1),
    llconvChroma target chroma rgb2u p (loffset + k) (uoffset + i / 2 + j / 4),
    llconvChroma target chroma rgb2v p (loffset + k) (voffset + i / 2 + j / 4)]

def llconvRgb2yvu (target : Format) (luma chroma : Int → Int) (p : RgbLayout) (w h : Int) :
    Option (List Step) := do
  let size ← intMul w h
  let _loffset ← intMul w p.stride
  forRows size (w * 2) fun row => stepsUpTo w 2 fun i =>
    llconvYvuBlock target luma chroma p w size (w * 2 * row) i

/-- `llconv_rgb2yvu_planar16sub_indexed`. -/
def llconvRgb2yvuPlanar16subIndexed (p : RgbLayout) (w h : Int) : Option (List Step) :=
  llconvRgb2yvu s16 (fun y => clamp16 (y / 2)) (fun c => clamp16 (c / 2)) p w h

/-- `llconv_rgb2yvu_planar16sub`. -/
def llconvRgb2yvuPlanar16sub (w h : Int) : Option (List Step) :=
  llconvRgb2yvuPlanar16subIndexed ⟨0, 1, 2, 3⟩ w h

/-- `llconv_rgb2yvu_planar8sub`. -/
def llconvRgb2yvuPlanar8sub (w h : Int) : Option (List Step) :=
  llconvRgb2yvu u8 (fun y => clamp8 (y / 2 ^ 8)) (fun c => clamp8 (c / 2 ^ 9 + 128))
    ⟨0, 1, 2, 3⟩ w h

/-! ## The dispatcher -/

/-- The raw image formats that the conversion methods pass. -/
inductive Rif where
  | yvuP411U8 | yvuP411S16 | rgbPU8 | greyU8 | greyS16
deriving DecidableEq

/-- `pdp_llconv`.  A pair of formats without a case only posts a warning. -/
def pdpLlconv (stype dtype : Rif) (w h : Int) : Option (List Step) :=
  match stype, dtype with
  | .yvuP411U8, .yvuP411S16 => do
      let n ← intMul w h
      pure (llconvYvuPlanarU8s16 n)
  | .rgbPU8, .yvuP411U8 => llconvRgb2yvuPlanar8sub w h
  | .rgbPU8, .yvuP411S16 => llconvRgb2yvuPlanar16sub w h
  | .yvuP411S16, .rgbPU8 => llconvYvu16planar2rgbpacked w h
  | .yvuP411S16, .yvuP411U8 => do
      let n ← intMul w h
      pure (llconvYvuPlanarS16u8 (ofInt32 n))
  | .greyS16, .greyU8 => do
      let n ← intMul w h
      pure (llconvGreyS16u8 (ofInt32 n))
  | _, _ => pure []

end PureDataPacket
