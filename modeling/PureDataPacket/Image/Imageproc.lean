/-
# `PureDataPacket.Image.Imageproc` — adding, multiplying and mixing images

The image processing routines come in three versions, of which a build links
one: `portable` in plain C, `gccMmx` with compiler intrinsics, and `mmx`, which
calls assembly.  All work in place on signed 16-bit pixels; the last two take
four pixels at a time.

The two images may be one packet, so that the second pointer is the first.  A
loop that leaves the images gives no result.
-/
import PureDataPacket.Lib.Binary32
import PureDataPacket.Lib.CInt

namespace PureDataPacket

/-! ## Pixels -/

/-- `s16`. -/
abbrev S16 := BitVec 16

/-- Conversion to `s16`. -/
def toS16 (n : Int) : S16 := BitVec.ofInt 16 n

/-- The images a routine works on: the pixels at `image`, and those at `image2` unless it is
the same pointer. -/
structure Images where
  image : List S16
  image2 : Option (List S16)
  deriving DecidableEq

namespace Images

/-- The pixels at `image2`. -/
def second (im : Images) : List S16 := im.image2.getD im.image

end Images

/-- `n` rounds of a loop, from counter `i`. -/
def rounds {σ : Type} (body : Nat → σ → Option σ) : Nat → Nat → σ → Option σ
  | 0, _, s => some s
  | n + 1, i, s => (body i s).bind (rounds body n (i + 1))

/-- `image[i] = f(image[i], image2[i])`. -/
def pixelStep (f : S16 → S16 → S16) (i : Nat) (im : Images) : Option Images := do
  let a ← im.image[i]?
  let b ← im.second[i]?
  return { im with image := im.image.set i (f a b) }

/-! ## Multimedia registers -/

/-- An `__m64`, as four pixels. -/
structure M64 where
  s0 : S16
  s1 : S16
  s2 : S16
  s3 : S16
  deriving DecidableEq

namespace M64

def map (f : S16 → S16) (m : M64) : M64 := ⟨f m.s0, f m.s1, f m.s2, f m.s3⟩

def map₂ (f : S16 → S16 → S16) (m n : M64) : M64 :=
  ⟨f m.s0 n.s0, f m.s1 n.s1, f m.s2 n.s2, f m.s3 n.s3⟩

/-- `movq` from the `v`-th four pixels. -/
def load (l : List S16) (v : Nat) : Option M64 := do
  return ⟨← l[4 * v]?, ← l[4 * v + 1]?, ← l[4 * v + 2]?, ← l[4 * v + 3]?⟩

/-- `movq` to the `v`-th four pixels. -/
def store (l : List S16) (v : Nat) (m : M64) : List S16 :=
  (((l.set (4 * v) m.s0).set (4 * v + 1) m.s1).set (4 * v + 2) m.s2).set (4 * v + 3) m.s3

end M64

/-- One pixel of `paddsw`: the sum, saturated. -/
def addsPixel (a b : S16) : S16 := toS16 (max (-0x8000) (min 0x7fff (a.toInt + b.toInt)))

/-- One pixel of `pmulhw`: the high word of the product. -/
def mulhiPixel (a b : S16) : S16 := toS16 (a.toInt * b.toInt / 2 ^ 16)

/-- `paddsw`, `_mm_adds_pi16`. -/
def paddsw : M64 → M64 → M64 := M64.map₂ addsPixel

/-- `pmulhw`, `_mm_mulhi_pi16`. -/
def pmulhw : M64 → M64 → M64 := M64.map₂ mulhiPixel

/-- `psllw`. -/
def psllw (n : Nat) : M64 → M64 := M64.map fun a => a <<< n

/-! ## Gains -/

/-- `float2fixed`. -/
def float2fixed (f : ℚ) : Int :=
  let f := if f > 1 then 1 else f
  let f := if f < -1 then -1 else f
  let f := toFloat (f * 0x7fff)
  truncate f

/-- `setvec`. -/
def setvec (f : ℚ) : M64 :=
  let a := toS16 (float2fixed f)
  ⟨a, a, a, a⟩

/-- The state of a mixer with gains in registers. -/
structure MixVec where
  left : M64
  right : M64
  deriving DecidableEq

/-! ## Plain C -/

namespace Portable

/-- `CLAMP16`. -/
def CLAMP16 (x : Int) : Int := if x > 0x7fff then 0x7fff else if x < -0x7fff then -0x7fff else x

/-- `pdp_imageproc_add_process`. -/
def pdpImageprocAddProcess (width height : Nat) (im : Images) : Option Images :=
  rounds (pixelStep fun a b => toS16 (CLAMP16 (a.toInt + b.toInt))) (u32 (width * height)) 0 im

/-- `pdp_imageproc_mul_process`. -/
def pdpImageprocMulProcess (width height : Nat) (im : Images) : Option Images :=
  rounds (pixelStep fun a b => toS16 (a.toInt * b.toInt / 2 ^ 15)) (u32 (width * height)) 0 im

/-- The state of a mixer: `s32 d[2]`. -/
structure Mix where
  d0 : Int
  d1 : Int
  deriving DecidableEq

/-- `pdp_imageproc_mix_setleftgain`. -/
def pdpImageprocMixSetleftgain (x : Mix) (gain : ℚ) : Mix := { x with d0 := float2fixed gain }

/-- `pdp_imageproc_mix_setrightgain`. -/
def pdpImageprocMixSetrightgain (x : Mix) (gain : ℚ) : Mix := { x with d1 := float2fixed gain }

def mixPixel (x : Mix) (a b : S16) : S16 :=
  toS16 (CLAMP16 ((a.toInt * x.d0 + b.toInt * x.d1) / 2 ^ 15))

/-- `pdp_imageproc_mix_process`. -/
def pdpImageprocMixProcess (x : Mix) (width height : Nat) (im : Images) : Option Images :=
  if x.d0 = 0 then rounds (pixelStep fun _ b => b) (u32 (width * height)) 0 im
  else rounds (pixelStep (mixPixel x)) (u32 (width * height)) 0 im

end Portable

/-! ## Intrinsics -/

namespace GccMmx

/-- `pdp_imageproc_add_process`. -/
def pdpImageprocAddProcess (width height : Nat) (im : Images) : Option Images :=
  rounds (fun v im => do
    let sum := paddsw (← M64.load im.image v) (← M64.load im.second v)
    return { im with image := M64.store im.image v sum }) (u32 (width * height) / 4) 0 im

/-- `pdp_imageproc_mul_process`. -/
def pdpImageprocMulProcess (width height : Nat) (im : Images) : Option Images :=
  rounds (fun v im => do
    let product := pmulhw (← M64.load im.image v) (← M64.load im.second v)
    return { im with image := M64.store im.image v product }) (u32 (width * height) / 4) 0 im

/-- `pdp_imageproc_mix_setleftgain`. -/
def pdpImageprocMixSetleftgain (x : MixVec) (gain : ℚ) : MixVec := { x with left := setvec gain }

/-- `pdp_imageproc_mix_setrightgain`. -/
def pdpImageprocMixSetrightgain (x : MixVec) (gain : ℚ) : MixVec := { x with right := setvec gain }

/-- `memcpy(image, image2, width * height * 2)`, of as many pixels as these bytes hold. -/
def copyPixels (width height : Nat) (im : Images) : Option Images :=
  let n := u32 (width * height * 2) / 2
  if n ≤ im.image.length ∧ n ≤ im.second.length then
    some { im with image := im.second.take n ++ im.image.drop n }
  else none

/-- `pdp_imageproc_mix_process`. -/
def pdpImageprocMixProcess (x : MixVec) (width height : Nat) (im : Images) : Option Images :=
  if x.left.s0 = 0 then
    if im.image2.isSome then copyPixels width height im else some im
  else
    rounds (fun v im => do
      let left := pmulhw x.left (← M64.load im.image v)
      let right := pmulhw x.right (← M64.load im.second v)
      let sum := paddsw left right
      let sum2 := paddsw sum sum
      return { im with image := M64.store im.image v sum2 }) (u32 (width * height) / 4) 0 im

end GccMmx

/-! ## Assembly -/

namespace Mmx

/-- How often the body of a loop that ends in `decl %ecx; jnz` is run: the counter is tested
after it has been decremented. -/
def loopCount (ecx : Nat) : Nat := (ecx + (2 ^ 32 - 1)) % 2 ^ 32 + 1

/-- `pixel_add_s16`. -/
def pixelAddS16 (nb4pixelVectors : Nat) (im : Images) : Option Images :=
  rounds (fun v im => do
    let mm1 ← M64.load im.second v
    let mm0 ← M64.load im.image v
    let mm0 := paddsw mm0 mm1
    return { im with image := M64.store im.image v mm0 }) (loopCount nb4pixelVectors) 0 im

/-- `pixel_mul_s16`. -/
def pixelMulS16 (nb4pixelVectors : Nat) (im : Images) : Option Images :=
  rounds (fun v im => do
    let mm1 ← M64.load im.second v
    let mm0 ← M64.load im.image v
    let mm0 := pmulhw mm0 mm1
    let mm0 := psllw 1 mm0
    return { im with image := M64.store im.image v mm0 }) (loopCount nb4pixelVectors) 0 im

/-- `pixel_mix_s16`. -/
def pixelMixS16 (nb4pixelVectors : Nat) (gainLeft gainRight : M64) (im : Images) : Option Images :=
  rounds (fun v im => do
    let mm1 ← M64.load im.second v
    let mm1 := pmulhw mm1 gainRight
    let mm0 ← M64.load im.image v
    let mm0 := pmulhw mm0 gainLeft
    let mm0 := paddsw mm0 mm0
    let mm1 := paddsw mm1 mm1
    let mm0 := paddsw mm0 mm1
    return { im with image := M64.store im.image v mm0 }) (loopCount nb4pixelVectors) 0 im

/-- `pdp_imageproc_add_process`. -/
def pdpImageprocAddProcess (width height : Nat) (im : Images) : Option Images :=
  pixelAddS16 (u32 (width * height) / 4) im

/-- `pdp_imageproc_mul_process`. -/
def pdpImageprocMulProcess (width height : Nat) (im : Images) : Option Images :=
  pixelMulS16 (u32 (width * height) / 4) im

/-- `pdp_imageproc_mix_setleftgain`. -/
def pdpImageprocMixSetleftgain (x : MixVec) (gain : ℚ) : MixVec := { x with left := setvec gain }

/-- `pdp_imageproc_mix_setrightgain`. -/
def pdpImageprocMixSetrightgain (x : MixVec) (gain : ℚ) : MixVec := { x with right := setvec gain }

/-- `pdp_imageproc_mix_process`. -/
def pdpImageprocMixProcess (x : MixVec) (width height : Nat) (im : Images) : Option Images :=
  if x.left.s0 = 0 then rounds (pixelStep fun _ b => b) (u32 (width * height)) 0 im
  else pixelMixS16 (u32 (width * height) / 4) x.left x.right im

end Mmx

end PureDataPacket
