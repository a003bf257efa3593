/-
# `PureDataPacket.Image.Bilinear` — the resampler of the multimedia intrinsics

`pixel_resample_linmap_s16` of `pdp_imageproc_gcc_mmx.c` walks over the destination four pixels
at a time and keeps two source coordinates in a register; `bilin_pixel` takes one coordinate
pair apart, fetches two by two pixels and interpolates.  A coordinate is a fraction of the
image, an `unsigned` of 32 bits without an integer part.

| | |
| :-- | :-- |
| `linmap_spec` | where every pixel of the destination comes from, and what is fetched |
| `bilinPixel_exact_iff` | for which pixels the interpolation is what it should be |

The interpolation multiplies differences of pixels, of 17 bits, by fractions of 16 bits that
have no sign.  Both together do not fit into an `int`.  The machine's arithmetic wraps around
there.
-/
import Mathlib.Algebra.Group.Action.Defs
import Mathlib.Data.BitVec
import PureDataPacket.Image.Scaling

namespace PureDataPacket

/-! ## Registers -/

/-- An `__m64`, as two words of 32 bits. -/
structure V2 where
  l0 : BitVec 32
  l1 : BitVec 32
  deriving DecidableEq

namespace V2

def map₂ (f : BitVec 32 → BitVec 32 → BitVec 32) (a b : V2) : V2 := ⟨f a.l0 b.l0, f a.l1 b.l1⟩

/-- `_mm_srli_pi32`. -/
def srli (n : Nat) (a : V2) : V2 := ⟨a.l0 >>> n, a.l1 >>> n⟩

/-- `_mm_add_pi32`. -/
def add : V2 → V2 → V2 := map₂ fun a b => a + b

/-- `_mm_cmpgt_pi32`: all ones where `a` is greater than `b`, with signs. -/
def cmpgt : V2 → V2 → V2 := map₂ fun a b => if b.toInt < a.toInt then BitVec.allOnes 32 else 0

/-- `_mm_and_si64`. -/
def and : V2 → V2 → V2 := map₂ fun a b => a &&& b

/-- `_mm_srli_si64(a, 32)`. -/
def high (a : V2) : V2 := ⟨a.l1, 0⟩

/-- `_mm_unpacklo_pi32`. -/
def unpacklo (a b : V2) : V2 := ⟨a.l0, b.l0⟩

/-- `_mm_unpackhi_pi32`. -/
def unpackhi (a b : V2) : V2 := ⟨a.l1, b.l1⟩

end V2

/-- A word of `_mm_packs_pi32`, saturated. -/
def packsWord (a : BitVec 32) : S16 := toS16 (max (-0x8000) (min 0x7fff a.toInt))

/-- `_mm_packs_pi32`. -/
def packs (a b : V2) : M64 := ⟨packsWord a.l0, packsWord a.l1, packsWord b.l0, packsWord b.l1⟩

/-- `_mm_mullo_pi16`. -/
def pmullw : M64 → M64 → M64 := M64.map₂ fun a b => a * b

/-- `_mm_unpacklo_pi16`. -/
def punpcklwd (a b : M64) : M64 := ⟨a.s0, b.s0, a.s1, b.s1⟩

/-- The same register as two words of 32 bits. -/
def M64.toV2 (a : M64) : V2 := ⟨a.s1 ++ a.s0, a.s3 ++ a.s2⟩

namespace GccMmx

/-! ## One pixel -/

/-- `t_resample_cid`. -/
structure ResampleCid where
  coordScale : M64
  rowStrideScale : M64
  offsetMax : V2
  incX : V2
  incY : V2
  image : List S16

/-- `pdp_imageproc_resample_init_cid`. -/
def pdpImageprocResampleInitCid (image : List S16) (width height : Nat) : ResampleCid where
  coordScale := ⟨toS16 (2 * (width - 1)), toS16 (2 * (height - 1)), 0, 0⟩
  rowStrideScale := ⟨1, toS16 width, 0, 0⟩
  offsetMax := ⟨BitVec.ofNat 32 width, BitVec.ofNat 32 (width * height)⟩
  incX := ⟨1, 0⟩
  incY := ⟨0, BitVec.ofNat 32 width⟩
  image := image

/-- `wrap_0`. -/
def wrap0 (val max : V2) : V2 := val.and (max.cmpgt val)

/-- The index that `fetch_pixel` computes. -/
def flat (offset : V2) : Nat := (offset.add offset.high).l0.toNat

/-- Where `bilin_pixel` fetches, and the fractions of the coordinates. -/
structure Taps where
  x0y0 : Nat
  x1y0 : Nat
  x0y1 : Nat
  x1y1 : Nat
  fracX : Nat
  fracY : Nat
  deriving DecidableEq

/-- `bilin_pixel`, up to the fetches. -/
def taps (p : ResampleCid) (xy32 : V2) : Taps :=
  let xy32s := xy32.srli (16 + 1)
  let xy16 := packs xy32s xy32s
  let index := pmulhw xy16 p.coordScale
  let frac := pmullw xy16 p.coordScale
  let offsetLo := pmullw index p.rowStrideScale
  let offsetHi := pmulhw index p.rowStrideScale
  let offsetX0Y0 := (punpcklwd offsetLo offsetHi).toV2
  let offsetX1Y0 := offsetX0Y0.add p.incX
  let offsetX0Y1 := offsetX0Y0.add p.incY
  let offsetX1Y1 := offsetX1Y0.add p.incY
  { x0y0 := flat offsetX0Y0
    x1y0 := flat (wrap0 offsetX1Y0 p.offsetMax)
    x0y1 := flat (wrap0 offsetX0Y1 p.offsetMax)
    x1y1 := flat (wrap0 offsetX1Y1 p.offsetMax)
    fracX := frac.s0.toNat
    fracY := frac.s1.toNat }

/-- `a + (((b - a) * frac) >> 16)`. -/
def lerp (frac a b : Int) : Int := toInt32 (a + toInt32 ((b - a) * frac) / 2 ^ 16)

/-- What `bilin_pixel` makes of the four pixels it has fetched. -/
def interpolate (t : Taps) (x0y0 x1y0 x0y1 x1y1 : Int) : Int :=
  let y0 := lerp t.fracX x0y0 x1y0
  let y1 := lerp t.fracX x0y1 x1y1
  lerp t.fracY y0 y1

/-- `bilin_pixel`: there is no result if a fetch leaves the image. -/
def bilinPixel (p : ResampleCid) (xy32 : V2) : Option Int := do
  let t := taps p xy32
  let x0y0 ← p.image[t.x0y0]?
  let x1y0 ← p.image[t.x1y0]?
  let x0y1 ← p.image[t.x0y1]?
  let x1y1 ← p.image[t.x1y1]?
  return interpolate t x0y0.toInt x1y0.toInt x0y1.toInt x1y1.toInt

/-! ## All pixels -/

/-- `t_resample_clmd`. -/
structure ResampleClmd where
  originX : V2
  originY : V2
  horDx : V2
  horDy : V2
  verDx : V2
  verDy : V2

/-- `pdp_imageproc_resample_cookedlinmap_init`. -/
def pdpImageprocResampleCookedlinmapInit
    (originX originY horDx horDy verDx verDy : BitVec 32) : ResampleClmd where
  originX := ⟨originX, originX + horDx⟩
  originY := ⟨originY, originY + horDy⟩
  horDx := ⟨horDx * 2, horDx * 2⟩
  horDy := ⟨horDy * 2, horDy * 2⟩
  verDx := ⟨verDx, verDx⟩
  verDy := ⟨verDy, verDy⟩

/-- The register whose lower half is an `int`.  Its upper half is not set, and nothing here
reads it. -/
def ofWord (w : Int) : M64 := ⟨toS16 w, toS16 (w / 2 ^ 16), 0, 0⟩

/-- The coordinates of a pair of pixels, and the pixels that have been stored.  The stores go
through the destination in order. -/
structure Walk where
  coX : V2
  coY : V2
  dst : List S16

/-- `im[v++] = p`, for a destination of `size` pixels. -/
def storePixels (size : Nat) (dst : List S16) (p : M64) : Option (List S16) :=
  if dst.length + 4 ≤ size then some (dst ++ [p.s0, p.s1, p.s2, p.s3]) else none

/-- The body of the inner loop of `pixel_resample_linmap_s16`. -/
def linmapStep (p : ResampleCid) (clmd : ResampleClmd) (size : Nat) (s : Walk) : Option Walk := do
  let co1X := s.coX.add clmd.horDx
  let co1Y := s.coY.add clmd.horDy
  let xy0 := V2.unpacklo s.coX s.coY
  let xy1 := V2.unpackhi s.coX s.coY
  let xy2 := V2.unpacklo co1X co1Y
  let xy3 := V2.unpackhi co1X co1Y
  let p0 := ofWord (← bilinPixel p xy0)
  let p1 := ofWord (← bilinPixel p xy1)
  let p2 := ofWord (← bilinPixel p xy2)
  let p3 := ofWord (← bilinPixel p xy3)
  let p02 := punpcklwd p0 p2
  let p13 := punpcklwd p1 p3
  let p0123 := punpcklwd p02 p13
  let dst ← storePixels size s.dst p0123
  return { coX := co1X.add clmd.horDx, coY := co1Y.add clmd.horDy, dst := dst }

/-- The body of the outer loop. -/
def linmapRow (p : ResampleCid) (clmd : ResampleClmd) (size horMax : Nat) (s : Walk) :
    Option Walk := do
  let row ← rounds (fun _ => linmapStep p clmd size) horMax 0 s
  return { coX := s.coX.add clmd.verDx, coY := s.coY.add clmd.verDy, dst := row.dst }

/-- `pixel_resample_linmap_s16`, for a destination of `size` pixels. -/
def pixelResampleLinmapS16 (p : ResampleCid) (clmd : ResampleClmd) (size width height : Nat) :
    Option (List S16) := do
  let horMax := width / 4
  let verMax := (toInt32 height).toNat
  let s ← rounds (fun _ => linmapRow p clmd size horMax) verMax 0
    ⟨clmd.originX, clmd.originY, []⟩
  return s.dst

/-! ## Where a pixel is fetched -/

/-- A coordinate of 32 bits in pixels, for an axis of `n` of them: it is cut to 15 bits. -/
def scaledCoord (c : BitVec 32) (n : Nat) : Nat := c.toNat / 2 ^ 17 * (2 * (n - 1))

def ofNats (a b : Nat) : V2 := ⟨BitVec.ofNat 32 a, BitVec.ofNat 32 b⟩

section Words

variable {x y c d n : Nat}

theorem toInt_ofNat16 (hn : n < 2 ^ 15) : (BitVec.ofNat 16 n).toInt = n := by
  rw [BitVec.toInt_eq_toNat_of_lt (by rw [BitVec.toNat_ofNat]; omega), BitVec.toNat_ofNat]
  omega

theorem toS16_natCast (n : Nat) : toS16 n = BitVec.ofNat 16 n := BitVec.ofInt_natCast 16 n

theorem packsWord_shift (x : BitVec 32) :
    packsWord (x >>> 17) = BitVec.ofNat 16 (x.toNat / 2 ^ 17) := by
  have hx := x.isLt
  have hshift : (x >>> 17).toNat = x.toNat / 2 ^ 17 := by
    rw [BitVec.toNat_ushiftRight, Nat.shiftRight_eq_div_pow]
  have htoInt : (x >>> 17).toInt = (x.toNat / 2 ^ 17 : Nat) := by
    rw [BitVec.toInt_eq_toNat_of_lt (by omega), hshift]
  unfold packsWord
  rw [htoInt, min_eq_right (by omega), max_eq_right (by omega), toS16_natCast]

theorem mulhiPixel_ofNat (hc : c < 2 ^ 15) (hd : d < 2 ^ 15) :
    mulhiPixel (BitVec.ofNat 16 c) (BitVec.ofNat 16 d) = BitVec.ofNat 16 (c * d / 2 ^ 16) := by
  unfold mulhiPixel
  rw [toInt_ofNat16 hc, toInt_ofNat16 hd, ← toS16_natCast]
  push_cast
  rfl

theorem mullo_ofNat : BitVec.ofNat 16 c * BitVec.ofNat 16 d = BitVec.ofNat 16 (c * d) :=
  (BitVec.ofNat_mul c d).symm

theorem append_ofNat (hn : n < 2 ^ 32) :
    (BitVec.ofNat 16 (n / 2 ^ 16) ++ BitVec.ofNat 16 n : BitVec 32) = BitVec.ofNat 32 n := by
  refine BitVec.eq_of_toNat_eq ?_
  rw [BitVec.toNat_append, ← Nat.shiftLeft_add_eq_or_of_lt (BitVec.isLt _), Nat.shiftLeft_eq,
    BitVec.toNat_ofNat, BitVec.toNat_ofNat, BitVec.toNat_ofNat]
  omega

theorem add_ofNats {a b : Nat} : (ofNats x y).add (ofNats a b) = ofNats (x + a) (y + b) := by
  simp only [V2.add, V2.map₂, ofNats, ← BitVec.ofNat_add]

theorem wrap0_ofNats (hx : x < c) (hy : y < d) (hc : c < 2 ^ 31) (hd : d < 2 ^ 31) :
    wrap0 (ofNats x y) (ofNats c d) = ofNats x y := by
  have hmask : ∀ a b : Nat, a < b → b < 2 ^ 31 → (BitVec.ofNat 32 a &&&
      if (BitVec.ofNat 32 a).toInt < (BitVec.ofNat 32 b).toInt then BitVec.allOnes 32 else 0) =
        BitVec.ofNat 32 a := by
    intro a b hab hb
    have htoInt : ∀ n : Nat, n < 2 ^ 31 → (BitVec.ofNat 32 n).toInt = n := fun n hn => by
      rw [BitVec.toInt_eq_toNat_of_lt (by rw [BitVec.toNat_ofNat]; omega), BitVec.toNat_ofNat]
      omega
    rw [htoInt a (by omega), htoInt b hb, if_pos (by omega), BitVec.and_allOnes]
  exact congrArg₂ V2.mk (hmask x c hx hc) (hmask y d hy hd)

theorem flat_ofNats (h : x + y < 2 ^ 32) : flat (ofNats x y) = x + y := by
  unfold flat
  show (BitVec.ofNat 32 x + BitVec.ofNat 32 y).toNat = x + y
  rw [← BitVec.ofNat_add, BitVec.toNat_ofNat]
  omega

end Words

section Taps

variable {w h : Nat} {x y : BitVec 32} {image : List S16}

theorem scaledCoord_lt {c : BitVec 32} {n : Nat} (hn : 2 ≤ n) (hn' : n ≤ 16384) :
    scaledCoord c n < 2 ^ 30 ∧ scaledCoord c n / 2 ^ 16 + 1 < n := by
  have hc := c.isLt
  have hle : scaledCoord c n ≤ 32767 * (2 * (n - 1)) := Nat.mul_le_mul_right _ (by omega)
  omega

theorem offset_eq {m : M64} {ix iy : Nat} (h0 : m.s0 = BitVec.ofNat 16 ix)
    (h1 : m.s1 = BitVec.ofNat 16 iy) (hix : ix < 2 ^ 14) (hiy : iy < 2 ^ 14) (hw' : w ≤ 16384)
    (hrow : iy * w < 2 ^ 28) :
    (punpcklwd (pmullw m ⟨1, toS16 w, 0, 0⟩) (pmulhw m ⟨1, toS16 w, 0, 0⟩)).toV2 =
      ofNats ix (iy * w) := by
  have hone : (1 : S16) = BitVec.ofNat 16 1 := rfl
  have hx : mulhiPixel m.s0 1 ++ (m.s0 * 1 : S16) = BitVec.ofNat 32 ix := by
    rw [h0, hone, mulhiPixel_ofNat (by omega) (by decide), mullo_ofNat, Nat.mul_one]
    exact append_ofNat (by omega)
  have hy : mulhiPixel m.s1 (toS16 w) ++ (m.s1 * toS16 w : S16) = BitVec.ofNat 32 (iy * w) := by
    rw [h1, toS16_natCast, mulhiPixel_ofNat (by omega) (by omega), mullo_ofNat]
    exact append_ofNat (by omega)
  exact congrArg₂ V2.mk hx hy

/-- `bilin_pixel` fetches the two by two pixels at the scaled coordinates. -/
theorem taps_eq (hw : 2 ≤ w) (hw' : w ≤ 16384) (hh : 2 ≤ h) (hh' : h ≤ 16384) :
    taps (pdpImageprocResampleInitCid image w h) ⟨x, y⟩ =
      let i := scaledCoord x w / 2 ^ 16 + scaledCoord y h / 2 ^ 16 * w
      ⟨i, i + 1, i + w, i + 1 + w, scaledCoord x w % 2 ^ 16, scaledCoord y h % 2 ^ 16⟩ := by
  obtain ⟨hx, hix⟩ := scaledCoord_lt (c := x) hw hw'
  obtain ⟨hy, hiy⟩ := scaledCoord_lt (c := y) hh hh'
  have hx15 : x.toNat / 2 ^ 17 < 2 ^ 15 := by have := x.isLt; omega
  have hy15 : y.toNat / 2 ^ 17 < 2 ^ 15 := by have := y.isLt; omega
  have hscale : ∀ n : Nat, 2 ≤ n → toS16 (2 * ((n : Int) - 1)) = BitVec.ofNat 16 (2 * (n - 1)) := by
    intro n hn
    rw [← toS16_natCast]
    congr 1
    omega
  have hindexX : mulhiPixel (packsWord (x >>> 17)) (toS16 (2 * ((w : Int) - 1))) =
      BitVec.ofNat 16 (scaledCoord x w / 2 ^ 16) := by
    rw [packsWord_shift, hscale w hw, mulhiPixel_ofNat hx15 (by omega)]
    rfl
  have hindexY : mulhiPixel (packsWord (y >>> 17)) (toS16 (2 * ((h : Int) - 1))) =
      BitVec.ofNat 16 (scaledCoord y h / 2 ^ 16) := by
    rw [packsWord_shift, hscale h hh, mulhiPixel_ofNat hy15 (by omega)]
    rfl
  have hfracX : packsWord (x >>> 17) * toS16 (2 * ((w : Int) - 1)) =
      BitVec.ofNat 16 (scaledCoord x w) := by
    rw [packsWord_shift, hscale w hw, mullo_ofNat]
    rfl
  have hfracY : packsWord (y >>> 17) * toS16 (2 * ((h : Int) - 1)) =
      BitVec.ofNat 16 (scaledCoord y h) := by
    rw [packsWord_shift, hscale h hh, mullo_ofNat]
    rfl
  have hrow : scaledCoord y h / 2 ^ 16 * w < 2 ^ 28 :=
    Nat.lt_of_lt_of_le
      (Nat.mul_lt_mul_of_pos_right (show scaledCoord y h / 2 ^ 16 < 2 ^ 14 by omega)
      (by omega)) (Nat.mul_le_mul_left (2 ^ 14) hw')
  have hlast : scaledCoord y h / 2 ^ 16 * w + w < w * h := by
    have hle : (scaledCoord y h / 2 ^ 16 + 2) * w ≤ h * w := Nat.mul_le_mul_right w (by omega)
    rw [Nat.add_mul, Nat.mul_comm h] at hle
    omega
  have harea : w * h ≤ 2 ^ 14 * 2 ^ 14 := Nat.mul_le_mul hw' hh'
  have hoffset := offset_eq (m := pmulhw (packs (V2.srli (16 + 1) ⟨x, y⟩) (V2.srli (16 + 1) ⟨x, y⟩))
    (pdpImageprocResampleInitCid image w h).coordScale) hindexX hindexY (by omega) (by omega)
    hw' hrow
  have hincX : (pdpImageprocResampleInitCid image w h).incX = ofNats 1 0 := rfl
  have hincY : (pdpImageprocResampleInitCid image w h).incY = ofNats 0 w := rfl
  have hmax : (pdpImageprocResampleInitCid image w h).offsetMax = ofNats w (w * h) := rfl
  have hstride : (pdpImageprocResampleInitCid image w h).rowStrideScale = ⟨1, toS16 w, 0, 0⟩ := rfl
  unfold taps
  dsimp only
  rw [hstride, hoffset, hincX, hincY, hmax]
  simp only [add_ofNats, Nat.add_zero]
  rw [wrap0_ofNats (by omega) (by omega) (by omega) (by omega),
    wrap0_ofNats (by omega) (by omega) (by omega) (by omega),
    wrap0_ofNats (by omega) (by omega) (by omega) (by omega), flat_ofNats (by omega),
    flat_ofNats (by omega), flat_ofNats (by omega), flat_ofNats (by omega), Taps.mk.injEq]
  refine ⟨rfl, by omega, by omega, by omega, ?_, ?_⟩
  · exact (congrArg BitVec.toNat hfracX).trans (BitVec.toNat_ofNat _ 16)
  · exact (congrArg BitVec.toNat hfracY).trans (BitVec.toNat_ofNat _ 16)

theorem taps_inside (hw : 2 ≤ w) (hw' : w ≤ 16384) (hh : 2 ≤ h) (hh' : h ≤ 16384) :
    scaledCoord x w / 2 ^ 16 + scaledCoord y h / 2 ^ 16 * w + w + 1 < w * h :=
  offset_lt (scaledCoord_lt hw hw').2 (scaledCoord_lt hh hh').2

/-- What the interpolation makes of the pixels at a coordinate pair. -/
def sampleAt (image : List S16) (w h : Nat) (x y : BitVec 32) : Int :=
  let i := scaledCoord x w / 2 ^ 16 + scaledCoord y h / 2 ^ 16 * w
  let fracX : Nat := scaledCoord x w % 2 ^ 16
  let fracY : Nat := scaledCoord y h % 2 ^ 16
  lerp fracY (lerp fracX (image.getD i 0).toInt (image.getD (i + 1) 0).toInt)
    (lerp fracX (image.getD (i + w) 0).toInt (image.getD (i + w + 1) 0).toInt)

theorem bilinPixel_eq (hw : 2 ≤ w) (hw' : w ≤ 16384) (hh : 2 ≤ h) (hh' : h ≤ 16384)
    (hlen : image.length = w * h) :
    bilinPixel (pdpImageprocResampleInitCid image w h) ⟨x, y⟩ = some (sampleAt image w h x y) := by
  have hin := taps_inside (x := x) (y := y) hw hw' hh hh'
  rw [← hlen] at hin
  have hget : ∀ i, i < image.length → image[i]? = some (image.getD i 0) := fun i hi => by
    rw [List.getElem?_eq_getElem hi, List.getD_eq_getElem _ _ hi]
  unfold bilinPixel
  rw [taps_eq hw hw' hh hh']
  dsimp only [pdpImageprocResampleInitCid]
  rw [hget _ (by omega), hget _ (by omega), hget _ (by omega), hget _ (by omega)]
  simp only [Option.bind_eq_bind, Option.bind_some, interpolate, sampleAt, Nat.add_right_comm _ 1 w]
  rfl

end Taps

/-! ## Where the pixels of the destination come from -/

/-- The coordinate of the pixel in column `i` and row `j`: `origin + i * hor + j * ver`, of 32
bits. -/
def coord (origin hor ver : BitVec 32) (i j : Nat) : BitVec 32 :=
  origin + BitVec.ofNat 32 i * hor + BitVec.ofNat 32 j * ver

section Linmap

variable {w h dw dh size j k : Nat} {ox oy hx hy vx vy : BitVec 32} {image out : List S16}

theorem coord_succ (o d v : BitVec 32) (i j : Nat) :
    coord o d v i j + d = coord o d v (i + 1) j := by
  unfold coord
  rw [BitVec.ofNat_add, BitVec.add_mul, BitVec.one_mul]
  ac_rfl

theorem coord_add_two (o d v : BitVec 32) (i j : Nat) :
    coord o d v i j + d * 2 = coord o d v (i + 2) j := by
  have htwo : d * 2 = d + d := mul_two d
  rw [htwo, ← BitVec.add_assoc, coord_succ, coord_succ]

theorem coord_down (o d v : BitVec 32) (i j : Nat) :
    coord o d v i j + v = coord o d v i (j + 1) := by
  unfold coord
  rw [BitVec.ofNat_add, BitVec.add_mul, BitVec.one_mul]
  ac_rfl

/-- The pixel in column `i` and row `j` of the destination. -/
def linmapPixel (image : List S16) (w h : Nat) (ox oy hx hy vx vy : BitVec 32) (j i : Nat) : S16 :=
  toS16 (sampleAt image w h (coord ox hx vx i j) (coord oy hy vy i j))

/-- Two coordinates that are kept in a register. -/
def coords (o d v : BitVec 32) (i j : Nat) : V2 := ⟨coord o d v i j, coord o d v (i + 1) j⟩

theorem linmapStep_eq {i : Nat} (hw : 2 ≤ w) (hw' : w ≤ 16384) (hh : 2 ≤ h) (hh' : h ≤ 16384)
    (hlen : image.length = w * h) (hsize : out.length + 4 ≤ size) :
    linmapStep (pdpImageprocResampleInitCid image w h)
        (pdpImageprocResampleCookedlinmapInit ox oy hx hy vx vy) size
        ⟨coords ox hx vx i j, coords oy hy vy i j, out⟩ =
      some ⟨coords ox hx vx (i + 4) j, coords oy hy vy (i + 4) j,
        out ++ [linmapPixel image w h ox oy hx hy vx vy j i,
          linmapPixel image w h ox oy hx hy vx vy j (i + 1),
          linmapPixel image w h ox oy hx hy vx vy j (i + 2),
          linmapPixel image w h ox oy hx hy vx vy j (i + 3)]⟩ := by
  have hbilin := fun x y => bilinPixel_eq (x := x) (y := y) hw hw' hh hh' hlen
  unfold linmapStep
  simp only [pdpImageprocResampleCookedlinmapInit, coords, V2.add, V2.map₂, V2.unpacklo,
    V2.unpackhi, coord_add_two, hbilin, Option.bind_eq_bind, Option.bind_some, storePixels,
    if_pos hsize]
  rfl

theorem linmapRow_eq (hw : 2 ≤ w) (hw' : w ≤ 16384) (hh : 2 ≤ h) (hh' : h ≤ 16384)
    (hlen : image.length = w * h) (hsize : out.length + 4 * k ≤ size) :
    linmapRow (pdpImageprocResampleInitCid image w h)
        (pdpImageprocResampleCookedlinmapInit ox oy hx hy vx vy) size k
        ⟨coords ox hx vx 0 j, coords oy hy vy 0 j, out⟩ =
      some ⟨coords ox hx vx 0 (j + 1), coords oy hy vy 0 (j + 1),
        out ++ (List.range (4 * k)).map (linmapPixel image w h ox oy hx hy vx vy j)⟩ := by
  have hrounds := @rounds_eq Walk (fun _ => linmapStep (pdpImageprocResampleInitCid image w h)
    (pdpImageprocResampleCookedlinmapInit ox oy hx hy vx vy) size)
    (fun n => ⟨coords ox hx vx (4 * n) j, coords oy hy vy (4 * n) j,
      out ++ (List.range (4 * n)).map (linmapPixel image w h ox oy hx hy vx vy j)⟩) k 0
    fun n _ hn => by
      have hstore : (out ++ (List.range (4 * n)).map
          (linmapPixel image w h ox oy hx hy vx vy j)).length + 4 ≤ size := by
        rw [List.length_append, List.length_map, List.length_range]
        omega
      rw [linmapStep_eq hw hw' hh hh' hlen hstore,
        show 4 * (n + 1) = 4 * n + 1 + 1 + 1 + 1 by omega]
      simp only [List.range_succ, List.map_append, List.map_cons, List.map_nil, List.append_assoc,
        List.cons_append, List.nil_append]
  rw [Nat.zero_add, Nat.mul_zero, List.range_zero, List.map_nil, List.append_nil] at hrounds
  unfold linmapRow
  rw [hrounds, Option.bind_eq_bind, Option.bind_some]
  simp only [coords, pdpImageprocResampleCookedlinmapInit, V2.add, V2.map₂, coord_down]
  rfl

/-- The pixels of `n` rows of `m`. -/
def linmapRows (image : List S16) (w h : Nat) (ox oy hx hy vx vy : BitVec 32) (m n : Nat) :
    List S16 :=
  (List.range n).flatMap fun j => (List.range m).map (linmapPixel image w h ox oy hx hy vx vy j)

theorem length_linmapRows {m n : Nat} :
    (linmapRows image w h ox oy hx hy vx vy m n).length = n * m := by
  unfold linmapRows
  rw [List.length_flatMap]
  simp only [List.length_map, List.length_range, List.map_const', List.sum_replicate, smul_eq_mul]

theorem linmapLoop_eq {n : Nat} (hw : 2 ≤ w) (hw' : w ≤ 16384) (hh : 2 ≤ h) (hh' : h ≤ 16384)
    (hlen : image.length = w * h) (hsize : n * (4 * k) ≤ size) :
    rounds (fun _ => linmapRow (pdpImageprocResampleInitCid image w h)
        (pdpImageprocResampleCookedlinmapInit ox oy hx hy vx vy) size k) n 0
        ⟨coords ox hx vx 0 0, coords oy hy vy 0 0, []⟩ =
      some ⟨coords ox hx vx 0 n, coords oy hy vy 0 n,
        linmapRows image w h ox oy hx hy vx vy (4 * k) n⟩ := by
  have hrounds := @rounds_eq Walk (fun _ => linmapRow (pdpImageprocResampleInitCid image w h)
    (pdpImageprocResampleCookedlinmapInit ox oy hx hy vx vy) size k)
    (fun j => ⟨coords ox hx vx 0 j, coords oy hy vy 0 j,
      linmapRows image w h ox oy hx hy vx vy (4 * k) j⟩) n 0
    fun j _ hj => by
      have hle : (j + 1) * (4 * k) ≤ n * (4 * k) := Nat.mul_le_mul_right _ (by omega)
      rw [Nat.succ_mul] at hle
      have hroom : (linmapRows image w h ox oy hx hy vx vy (4 * k) j).length + 4 * k ≤ size := by
        rw [length_linmapRows]
        omega
      rw [linmapRow_eq hw hw' hh hh' hlen hroom]
      unfold linmapRows
      rw [List.range_succ, List.flatMap_append, List.flatMap_singleton]
  rw [Nat.zero_add] at hrounds
  exact hrounds

/-- `pixel_resample_linmap_s16` stores every pixel of the destination once, in order, each from
the source coordinates that the linear map gives, and what it fetches for a coordinate pair are
two by two pixels of the source, the first of them at the scaled coordinates. -/
theorem linmap_spec (hw : 2 ≤ w) (hw' : w ≤ 16384) (hh : 2 ≤ h) (hh' : h ≤ 16384)
    (hlen : image.length = w * h) (hdw : dw % 4 = 0) (hsize : dw * dh < 2 ^ 31)
    (ox oy hx hy vx vy : BitVec 32) :
    pixelResampleLinmapS16 (pdpImageprocResampleInitCid image w h)
        (pdpImageprocResampleCookedlinmapInit ox oy hx hy vx vy) (dw * dh) dw dh =
      some ((List.range dh).flatMap fun j => (List.range dw).map fun i =>
        toS16 (sampleAt image w h (coord ox hx vx i j) (coord oy hy vy i j))) ∧
    ∀ x y : BitVec 32, scaledCoord x w / 2 ^ 16 + 1 < w ∧ scaledCoord y h / 2 ^ 16 + 1 < h ∧
      bilinPixel (pdpImageprocResampleInitCid image w h) ⟨x, y⟩ = some (sampleAt image w h x y) ∧
      ∃ fracX fracY, taps (pdpImageprocResampleInitCid image w h) ⟨x, y⟩ =
        let i := scaledCoord x w / 2 ^ 16 + scaledCoord y h / 2 ^ 16 * w
        ⟨i, i + 1, i + w, i + 1 + w, fracX, fracY⟩ := by
  constructor
  · have hquot : 4 * (dw / 4) = dw := by omega
    have horigin : (pdpImageprocResampleCookedlinmapInit ox oy hx hy vx vy).originX =
        coords ox hx vx 0 0 ∧ (pdpImageprocResampleCookedlinmapInit ox oy hx hy vx vy).originY =
          coords oy hy vy 0 0 := by
      have hzero : ∀ o d v : BitVec 32, coord o d v 0 0 = o := fun o d v => by
        simp only [coord, BitVec.zero_mul, BitVec.add_zero]
      constructor <;>
        simp only [coords, ← coord_succ, hzero, pdpImageprocResampleCookedlinmapInit]
    -- A destination without columns may have any number of rows.
    have hrows : (toInt32 dh).toNat * dw = dh * dw := by
      rcases Nat.eq_zero_or_pos dw with rfl | hpos
      · rw [Nat.mul_zero, Nat.mul_zero]
      · have hle : dh ≤ dw * dh := Nat.le_mul_of_pos_left dh hpos
        rw [toInt32_of_nat_lt (by omega), Int.toNat_natCast]
    have hsame : linmapRows image w h ox oy hx hy vx vy dw (toInt32 dh).toNat =
        linmapRows image w h ox oy hx hy vx vy dw dh := by
      rcases Nat.eq_zero_or_pos dw with rfl | hpos
      · have hnil : ∀ n, linmapRows image w h ox oy hx hy vx vy 0 n = [] := fun n =>
          List.eq_nil_of_length_eq_zero (by rw [length_linmapRows, Nat.mul_zero])
        rw [hnil, hnil]
      · rw [Nat.eq_of_mul_eq_mul_right hpos hrows]
    have hloop := @linmapLoop_eq w h (dw * dh) (dw / 4) ox oy hx hy vx vy image
      (toInt32 dh).toNat hw hw' hh hh' hlen
      (by rw [hquot, hrows, Nat.mul_comm])
    unfold pixelResampleLinmapS16
    rw [horigin.1, horigin.2]
    dsimp only
    rw [hloop, Option.bind_eq_bind, Option.bind_some, hquot, hsame]
    rfl
  · intro x y
    exact ⟨(scaledCoord_lt hw hw').2, (scaledCoord_lt hh hh').2,
      bilinPixel_eq hw hw' hh hh' hlen, _, _, taps_eq hw hw' hh hh'⟩

/-- Half of the image's width and height, for a row of four pixels. -/
theorem linmap_spec_row :
    pixelResampleLinmapS16 (pdpImageprocResampleInitCid [1, 2, 3, 4] 2 2)
        (pdpImageprocResampleCookedlinmapInit 0 0 0x20000000 0 0 0) (4 * 1) 4 1 =
      some ((List.range 1).flatMap fun j => (List.range 4).map fun i =>
        toS16 (sampleAt [1, 2, 3, 4] 2 2 (coord 0 0x20000000 0 i j) (coord 0 0 0 i j))) ∧
    ∀ x y : BitVec 32, scaledCoord x 2 / 2 ^ 16 + 1 < 2 ∧ scaledCoord y 2 / 2 ^ 16 + 1 < 2 ∧
      bilinPixel (pdpImageprocResampleInitCid [1, 2, 3, 4] 2 2) ⟨x, y⟩ =
        some (sampleAt [1, 2, 3, 4] 2 2 x y) ∧
      ∃ fracX fracY, taps (pdpImageprocResampleInitCid [1, 2, 3, 4] 2 2) ⟨x, y⟩ =
        let i := scaledCoord x 2 / 2 ^ 16 + scaledCoord y 2 / 2 ^ 16 * 2
        ⟨i, i + 1, i + 2, i + 1 + 2, fracX, fracY⟩ :=
  linmap_spec (by decide) (by decide) (by decide) (by decide) rfl (by decide) (by decide)
    _ _ _ _ _ _

end Linmap

/-! ## Between the pixels -/

/-- Where the pixels of a coordinate pair are. -/
def blockIndex (w h : Nat) (x y : BitVec 32) : Nat :=
  scaledCoord x w / 2 ^ 16 + scaledCoord y h / 2 ^ 16 * w

/-- What is left of a scaled coordinate. -/
def frac (c : BitVec 32) (n : Nat) : Nat := scaledCoord c n % 2 ^ 16

/-- The mean of two values, the second with the weight `f / 2 ^ 16`, rounded down. -/
def mean (f a b : Int) : Int := ((0x10000 - f) * a + f * b) / 2 ^ 16

/-- No value that `a + (((b - a) * f) >> 16)` goes through leaves the range of `int`. -/
def LerpFits (f a b : Int) : Prop :=
  IsInt (b - a) ∧ IsInt ((b - a) * f) ∧ IsInt (a + (b - a) * f / 2 ^ 16)

/-- The interpolation at a coordinate pair stays in the range of `int`, and what comes out is
between the smallest and the largest of the pixels that are fetched. -/
structure Interpolates (image : List S16) (w h : Nat) (x y : BitVec 32) : Prop where
  upper : LerpFits (frac x w) (image.getD (blockIndex w h x y) 0).toInt
    (image.getD (blockIndex w h x y + 1) 0).toInt
  lower : LerpFits (frac x w) (image.getD (blockIndex w h x y + w) 0).toInt
    (image.getD (blockIndex w h x y + w + 1) 0).toInt
  rows : LerpFits (frac y h)
    (lerp (frac x w) (image.getD (blockIndex w h x y) 0).toInt
      (image.getD (blockIndex w h x y + 1) 0).toInt)
    (lerp (frac x w) (image.getD (blockIndex w h x y + w) 0).toInt
      (image.getD (blockIndex w h x y + w + 1) 0).toInt)
  between : Between (sampleAt image w h x y) (blockAt image w (blockIndex w h x y))

/-- The differences of the pixels, and of the means of the rows, times their fractions are
`int`s. -/
def ProductsFit (image : List S16) (w h : Nat) (x y : BitVec 32) : Prop :=
  let a := (image.getD (blockIndex w h x y) 0).toInt
  let b := (image.getD (blockIndex w h x y + 1) 0).toInt
  let c := (image.getD (blockIndex w h x y + w) 0).toInt
  let d := (image.getD (blockIndex w h x y + w + 1) 0).toInt
  IsInt ((b - a) * frac x w) ∧ IsInt ((d - c) * frac x w) ∧
    IsInt ((mean (frac x w) c d - mean (frac x w) a b) * frac y h)

section Between

variable {w h : Nat} {x y : BitVec 32} {image : List S16} {f a b lo hi : Int}

theorem mean_eq : mean f a b = a + (b - a) * f / 2 ^ 16 := by
  have hsum : (0x10000 - f) * a + f * b = (b - a) * f + a * 2 ^ 16 := by ring
  unfold mean
  rw [hsum, Int.add_mul_ediv_right _ _ (by decide), Int.add_comm]

/-- One interpolation, if its product is an `int`. -/
theorem lerp_eq (hf : 0 ≤ f ∧ f ≤ 2 ^ 16) (ha : -2 ^ 15 ≤ a ∧ a ≤ 2 ^ 15 - 1)
    (hb : -2 ^ 15 ≤ b ∧ b ≤ 2 ^ 15 - 1) (hprod : IsInt ((b - a) * f)) :
    LerpFits f a b ∧ lerp f a b = mean f a b := by
  have hbounds := blend_bounds hf.1 hf.2 ha hb
  have hmean : mean f a b = ((0x10000 - f) * a + f * b) / 2 ^ 16 := rfl
  rw [← hmean, mean_eq] at hbounds
  have hint : IsInt (a + (b - a) * f / 2 ^ 16) := ⟨by omega, by omega⟩
  refine ⟨⟨⟨by omega, by omega⟩, hprod, hint⟩, ?_⟩
  unfold lerp
  rw [toInt32_of_isInt hprod, toInt32_of_isInt hint, mean_eq]

/-- The interpolation is what it should be just if its three products are `int`s. -/
theorem interpolates_iff : Interpolates image w h x y ↔ ProductsFit image w h x y := by
  have hpixel : ∀ p : S16, -2 ^ 15 ≤ p.toInt ∧ p.toInt ≤ 2 ^ 15 - 1 := fun p => by
    have hlo := p.le_toInt
    have hhi := p.toInt_lt
    omega
  have hfrac : ∀ (c : BitVec 32) (n : Nat), (0 : Int) ≤ frac c n ∧ (frac c n : Int) ≤ 2 ^ 16 :=
    fun c n => by
      have hlt : frac c n < 2 ^ 16 := Nat.mod_lt _ (by decide)
      omega
  have hmean : ∀ p q : S16, -2 ^ 15 ≤ mean (frac x w) p.toInt q.toInt ∧
      mean (frac x w) p.toInt q.toInt ≤ 2 ^ 15 - 1 := fun p q =>
    blend_bounds (hfrac x w).1 (hfrac x w).2 (hpixel p) (hpixel q)
  constructor
  · intro hi
    have hupper := lerp_eq (hfrac x w) (hpixel _) (hpixel _) hi.upper.2.1
    have hlower := lerp_eq (hfrac x w) (hpixel _) (hpixel _) hi.lower.2.1
    have hrows := hi.rows.2.1
    rw [hupper.2, hlower.2] at hrows
    exact ⟨hi.upper.2.1, hi.lower.2.1, hrows⟩
  · rintro ⟨hab, hcd, hrows⟩
    have hupper := lerp_eq (hfrac x w) (hpixel _) (hpixel _) hab
    have hlower := lerp_eq (hfrac x w) (hpixel _) (hpixel _) hcd
    have hlast := lerp_eq (hfrac y h) (hmean _ _) (hmean _ _) hrows
    refine ⟨hupper.1, hlower.1, ?_, ?_⟩
    · rw [hupper.2, hlower.2]
      exact hlast.1
    · have hsample : sampleAt image w h x y = mean (frac y h)
          (mean (frac x w) (image.getD (blockIndex w h x y) 0).toInt
            (image.getD (blockIndex w h x y + 1) 0).toInt)
          (mean (frac x w) (image.getD (blockIndex w h x y + w) 0).toInt
            (image.getD (blockIndex w h x y + w + 1) 0).toInt) := by
        rw [← hlast.2, ← hupper.2, ← hlower.2]
        rfl
      rw [hsample]
      refine between_of_bounds fun lo hi hl => ?_
      simp only [blockAt, List.forall_mem_cons, List.not_mem_nil, false_imp_iff, implies_true,
        and_true] at hl
      obtain ⟨h00, h01, h10, h11⟩ := hl
      exact blend_bounds (hfrac y h).1 (hfrac y h).2
        (blend_bounds (hfrac x w).1 (hfrac x w).2 h00 h01)
        (blend_bounds (hfrac x w).1 (hfrac x w).2 h10 h11)

theorem isInt_product (hf : 0 ≤ f ∧ f ≤ 2 ^ 16) (hlo : -2 ^ 15 ≤ b - a) (hhi : b - a < 2 ^ 15) :
    IsInt ((b - a) * f) := by
  have hbounds := isInt_weight hf.1 ⟨hlo, hhi⟩
  rw [Int.mul_comm f] at hbounds
  exact ⟨by omega, by omega⟩

/-- Pixels that are less than `2 ^ 15` apart, as those of a luma plane are. -/
theorem interpolates_of_close {lo : Int}
    (hclose : ∀ p ∈ blockAt image w (blockIndex w h x y), lo ≤ p.toInt ∧ p.toInt < lo + 2 ^ 15) :
    Interpolates image w h x y := by
  have hfrac : ∀ (c : BitVec 32) (n : Nat), (0 : Int) ≤ frac c n ∧ (frac c n : Int) ≤ 2 ^ 16 :=
    fun c n => by
      have hlt : frac c n < 2 ^ 16 := Nat.mod_lt _ (by decide)
      omega
  simp only [blockAt, List.forall_mem_cons, List.not_mem_nil, false_imp_iff, implies_true,
    and_true] at hclose
  obtain ⟨h00, h01, h10, h11⟩ := hclose
  have hmean : ∀ p q : Int, lo ≤ p ∧ p < lo + 2 ^ 15 → lo ≤ q ∧ q < lo + 2 ^ 15 →
      lo ≤ mean (frac x w) p q ∧ mean (frac x w) p q ≤ lo + 2 ^ 15 - 1 := fun p q hp hq =>
    blend_bounds (hfrac x w).1 (hfrac x w).2 (by omega) (by omega)
  have hupper := hmean _ _ h00 h01
  have hlower := hmean _ _ h10 h11
  exact interpolates_iff.mpr ⟨isInt_product (hfrac x w) (by omega) (by omega),
    isInt_product (hfrac x w) (by omega) (by omega),
    isInt_product (hfrac y h) (by omega) (by omega)⟩

/-- When `bilin_pixel` interpolates without leaving the range of `int`, to a value between the
pixels it has fetched; the routine in plain C always does. -/
theorem bilinPixel_exact_iff (hw : 2 ≤ w) (hw' : w ≤ 16384) (hh : 2 ≤ h) (hh' : h ≤ 16384)
    (hlen : image.length = w * h) :
    (∀ x y : BitVec 32,
      bilinPixel (pdpImageprocResampleInitCid image w h) ⟨x, y⟩ = some (sampleAt image w h x y) ∧
        (Interpolates image w h x y ↔ ProductsFit image w h x y)) ∧
    ∀ x y : Nat, x < 2 ^ 16 → y < 2 ^ 16 →
      ∃ v, Portable.pdpResampleBilin image w h x y = some v ∧
        x * (w - 1) / 2 ^ 16 + y * (h - 1) / 2 ^ 16 * w + w + 1 < image.length ∧
        Between v (blockAt image w (x * (w - 1) / 2 ^ 16 + y * (h - 1) / 2 ^ 16 * w)) := by
  constructor
  · intro x y
    exact ⟨bilinPixel_eq hw hw' hh hh' hlen, interpolates_iff⟩
  · intro x y hx hy
    exact resampleBilin_spec hw (by omega) hh (by omega) hlen hx hy

/-- A luma plane of four pixels. -/
theorem bilinPixel_exact_iff_luma :
    (∀ x y : BitVec 32, bilinPixel (pdpImageprocResampleInitCid [0, 1, 2, 0x7fff] 2 2) ⟨x, y⟩ =
        some (sampleAt [0, 1, 2, 0x7fff] 2 2 x y) ∧
      (Interpolates [0, 1, 2, 0x7fff] 2 2 x y ↔ ProductsFit [0, 1, 2, 0x7fff] 2 2 x y)) ∧
    ∀ x y : Nat, x < 2 ^ 16 → y < 2 ^ 16 →
      ∃ v, Portable.pdpResampleBilin [0, 1, 2, 0x7fff] (2 : Nat) (2 : Nat) x y = some v ∧
        x * (2 - 1) / 2 ^ 16 + y * (2 - 1) / 2 ^ 16 * 2 + 2 + 1 < 4 ∧
        Between v (blockAt [0, 1, 2, 0x7fff] 2
          (x * (2 - 1) / 2 ^ 16 + y * (2 - 1) / 2 ^ 16 * 2)) :=
  bilinPixel_exact_iff (by decide) (by decide) (by decide) (by decide) rfl

/-- The right end of a row from the smallest to the largest chroma: the interpolation wraps
around, to less than any pixel. -/
theorem not_interpolates :
    bilinPixel (pdpImageprocResampleInitCid [0x8000, 0x7fff, 0x8000, 0x7fff] 2 2)
        ⟨0xffffffff, 0⟩ = some (-32771) ∧
      ¬ Interpolates [0x8000, 0x7fff, 0x8000, 0x7fff] 2 2 0xffffffff 0 := by
  refine ⟨by decide, fun hi => ?_⟩
  have hprod := hi.upper.2.1
  exact absurd hprod (by decide)

end Between

end GccMmx

end PureDataPacket
