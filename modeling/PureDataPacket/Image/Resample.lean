/-
# `PureDataPacket.Image.Resample` — image resampling

`pdp_resample_halve`, `pdp_resample_double` and the bilinear
`pdp_resample_scale_bilin`.  The last one walks over virtual coordinates: every
axis is `2 ^ 30` long, whatever the number of pixels on it.

Not modelled: the nearest neighbour version, which the conversion methods never
take, and the routines that are commented out or empty.
-/
import PureDataPacket.Image.Llconv

namespace PureDataPacket

/-! ## By a factor of two -/

/-- `pdp_resample_halve`. -/
def pdpResampleHalve (srcW srcH : Int) : Option (List Step) := do
  let dstW := srcW / 2
  let dstH := srcH / 2
  let bound ← intMul dstH dstW
  forRows bound dstW fun row => stepsUpTo dstW 1 fun dstX =>
    let dstY := dstW * row
    let srcY := srcW * 2 * row
    let srcX := 2 * dstX
    [⟨s16, s16, [srcY + srcX, srcY + srcX + 1, srcY + srcX + srcW, srcY + srcX + srcW + 1],
      dstX + dstY, fun l => l.sum / 4⟩]

/-- `pdp_resample_double`.  The source is read in order. -/
def pdpResampleDouble (srcW srcH : Int) : Option (List Step) := do
  let dstW := srcW * 2
  let bound ← intMul srcH srcW
  forRows bound srcW fun row => stepsUpTo srcW 1 fun srcX =>
    let srcY := srcW * row
    let dst := srcY * 4 + srcX * 2
    [.map s16 s16 dst (srcY + srcX) id, .map s16 s16 (dst + 1) (srcY + srcX) id,
      .map s16 s16 (dst + dstW) (srcY + srcX) id, .map s16 s16 (dst + dstW + 1) (srcY + srcX) id]

/-! ## To any size -/

/-- `pdp_resample_bilin`, stored at `dst`. -/
def pdpResampleBilin (width height virtX virtY dst : Int) : Option (List Step) := do
  let fpX ← intMul (virtX % 2 ^ 16) (width - 1)
  let fpY ← intMul (virtY % 2 ^ 16) (height - 1)
  let fracX := fpX % 2 ^ 16
  let fracY := fpY % 2 ^ 16
  let rows ← intMul (fpY / 2 ^ 16) width
  let offset := fpX / 2 ^ 16 + rows
  pure [⟨s16, s16, [offset, offset + 1, offset + width, offset + width + 1], dst, fun
    | [a, b, c, d] =>
        let r₁ := ((2 ^ 16 - fracX) * a + fracX * b) / 2 ^ 16
        let r₂ := ((2 ^ 16 - fracX) * c + fracX * d) / 2 ^ 16
        ((2 ^ 16 - fracY) * r₁ + fracY * r₂) / 2 ^ 16
    | _ => 0⟩]

/-- `0x40000000 / n`. -/
def scaleOf (n : Int) : Option Int :=
  if n = 0 then none else some ((2 ^ 30 : Int).tdiv n)

/-- `pdp_resample_scale_bilin`. -/
def pdpResampleScaleBilin (srcW srcH dstW dstH : Int) : Option (List Step) := do
  let scaleX ← scaleOf dstW
  let scaleY ← scaleOf dstH
  stepsForM dstH.toNat fun j => stepsForM dstW.toNat fun i =>
    pdpResampleBilin srcW srcH (i * scaleX / 2 ^ 14) (j * scaleY / 2 ^ 14) (dstW * j + i)

end PureDataPacket
