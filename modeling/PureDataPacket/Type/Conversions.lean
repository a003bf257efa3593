/-
# `PureDataPacket.Type.Conversions` — the conversion methods

Every method registered by `pdp_image_setup` and `pdp_bitmap_setup`, and the
two tables.  A method makes a packet of the target type and fills it from the
source; what it fills it with is a list of steps from one data area to the
other.

The methods are called on packets that match the source pattern of their
program, so most of them look at nothing but the dimensions.
-/
import PureDataPacket.Type.Bitmap
import PureDataPacket.Image.Resample
import PureDataPacket.Kernel.Convert

namespace PureDataPacket

open PoolProg (call)

/-! ## What the methods share -/

/-- The header of the source.  Its subheader is dereferenced unchecked. -/
def withHeader (packet : Int) (body : Packet → PoolProg Int) : PoolProg Int := do
  match ← call (.header packet) with
  | none => .crash .nullHeader
  | some header => body header

/-- A computation between two operations on the pool. -/
def checked {α : Type} (x : Option α) (body : α → PoolProg Int) : PoolProg Int :=
  match x with
  | none => .crash .undefined
  | some a => body a

/-- The data of `newP` after the steps from the data of `packet`. -/
def fill (packet newP : Int) (work : Option (List Step)) : PoolProg Int :=
  checked work fun steps => do
    match ← call (.header packet) with
    | none => .crash .nullPointer
    | some src =>
        match ← call (.header newP) with
        | none => .crash .nullPointer
        | some dst =>
            match runSteps src.data.bytes steps dst.data.bytes with
            | none => .crash .outOfBounds
            | some bytes => do
                call (.memcpyData newP bytes)
                pure newP

/-- What is left to do for `fill` when the work is done, or has left its blocks. -/
def writeFilled (newP : Int) : Option (List UInt8) → PoolProg Int
  | none => .crash .outOfBounds
  | some bytes => .act (.memcpyData newP bytes) fun _ => .done newP

/-- `if (-1 == new_p) return -1;`, then the work. -/
def fillNew (packet newP : Int) (work : Option (List Step)) : PoolProg Int :=
  if newP = -1 then pure (-1) else fill packet newP work

/-- Make a packet and fill it. -/
def convertInto (packet : Int) (make : PoolProg Int) (work : Option (List Step)) :
    PoolProg Int := do
  let newP ← make
  fillNew packet newP work

/-- `memcpy` with a size that was an `int`: a negative one is a huge `size_t`. -/
def memcpyInt (n : Int) : Option (List Step) :=
  if n < 0 then none else some (memcpySteps n.toNat)

/-- `memset` to 0, likewise, from byte `off` on. -/
def clearInt (off n : Int) : Option (List Step) :=
  if n < 0 then none else some (memsetSteps off 0 n.toNat)

/-- `pdp_packet_image_isvalid`, of a packet that exists. -/
def pdpPacketImageIsvalid (header : Packet) : Bool :=
  header.type = pdpImage &&
    (header.info.encoding = pdpImageYV12 || header.info.encoding = pdpImageGREY ||
      header.info.encoding = pdpImageMCHP)

/-! ## From image to image -/

/-- `2*w*h`. -/
def yBytes (w h : Int) : Option Int := do
  let w2 ← intMul 2 w
  intMul w2 h

/-- `_pdp_packet_image_convert_YCrCb_to_grey`. -/
def pdpPacketImageConvertYCrCbToGrey (packet : Int) : PoolProg Int :=
  withHeader packet fun header =>
    let w := header.info.width
    let h := header.info.height
    convertInto packet (pdpPacketNewImageGrey w h) do
      let n ← yBytes (toInt32 w) (toInt32 h)
      memcpyInt n

/-- `_pdp_packet_image_convert_grey_to_YCrCb`. -/
def pdpPacketImageConvertGreyToYCrCb (packet : Int) : PoolProg Int :=
  withHeader packet fun header => do
    let w := header.info.width
    let h := header.info.height
    let p ← pdpPacketNewImageYCrCb w h
    checked (yBytes (toInt32 w) (toInt32 h)) fun yBytes => fillNew packet p do
      let luma ← memcpyInt yBytes
      let chroma ← clearInt yBytes (yBytes / 2)
      pure (luma ++ chroma)

/-- `_pdp_packet_image_convert_grey_to_multi`. -/
def pdpPacketImageConvertGreyToMulti (packet : Int) : PoolProg Int :=
  withHeader packet fun header => do
    let w := header.info.width
    let h := header.info.height
    let p ← pdpPacketNewImageMchp w h 1
    checked (yBytes (toInt32 w) (toInt32 h)) fun yBytes => fillNew packet p (memcpyInt yBytes)

/-- The planes of `_pdp_packet_image_convert_multi_to_YCrCb`.  A missing chroma
plane is cleared: `planeSize / 2` bytes are `planeSize / 4` samples. -/
def multiToYCrCb (planeSize w h d : Int) : Option (List Step) := do
  let n ← intMul planeSize 2
  let luma ← memcpyInt n
  let newdata := planeSize
  let chroma₁ ←
    if 1 ≤ d then do
      let l ← pdpResampleHalve w h
      pure (l.map (.shift planeSize newdata))
    else clearInt (2 * newdata) (planeSize / 2)
  let newdata := newdata + planeSize / 4
  let chroma₂ ←
    if 2 ≤ d then do
      let l ← pdpResampleHalve w h
      pure (l.map (.shift (2 * planeSize) newdata))
    else clearInt (2 * newdata) (planeSize / 2)
  pure (luma ++ chroma₁ ++ chroma₂)

/-- `_pdp_packet_image_convert_multi_to_YCrCb`. -/
def pdpPacketImageConvertMultiToYCrCb (packet : Int) : PoolProg Int :=
  withHeader packet fun header =>
    let w := header.info.width
    let h := header.info.height
    let d := header.info.depth
    checked (intMul (toInt32 w) (toInt32 h)) fun planeSize =>
      convertInto packet (pdpPacketNewImageYCrCb w h)
        (multiToYCrCb planeSize (toInt32 w) (toInt32 h) (toInt32 d))

/-- The planes of `_pdp_packet_image_convert_YCrCb_to_multi`. -/
def yCrCbToMulti (planeSize w h : Int) : Option (List Step) := do
  let n ← intMul planeSize 2
  let luma ← memcpyInt n
  let l ← pdpResampleDouble (w / 2) (h / 2)
  let chroma₁ := l.map (.shift planeSize planeSize)
  let chroma₂ := l.map (.shift (planeSize + planeSize / 4) (planeSize + planeSize))
  pure (luma ++ chroma₁ ++ chroma₂)

/-- `_pdp_packet_image_convert_YCrCb_to_multi`. -/
def pdpPacketImageConvertYCrCbToMulti (packet : Int) : PoolProg Int :=
  withHeader packet fun header =>
    let w := header.info.width
    let h := header.info.height
    checked (intMul (toInt32 w) (toInt32 h)) fun planeSize =>
      convertInto packet (pdpPacketNewImageMchp w h 3)
        (yCrCbToMulti planeSize (toInt32 w) (toInt32 h))

/-- `while (*c++ != '/');`: what is behind the next `/`. -/
def skipWord : List Char → Option (List Char)
  | [] => none
  | c :: cs => if c = '/' then some cs else skipWord cs

/-- `_pdp_description_get_dims`.  Without two slashes it runs past the end of
the name. -/
def pdpDescriptionGetDims (template : Symbol) : Option (List Int) :=
  ((skipWord template).bind skipWord).map (scanDims 3)

/-- The planes of `_pdp_packet_image_convert_resample_YCrCb`. -/
def resampleYCrCb (srcW srcH : Nat) (dstW dstH : Int) : Option (List Step) := do
  let srcSize := u32 (srcW * srcH)
  let srcVoffset := srcSize
  let srcUoffset := u32 (srcSize + srcSize / 4)
  let dstSize := ofInt32 (← intMul dstW dstH)
  let dstVoffset := dstSize
  let dstUoffset := u32 (dstSize + dstSize / 4)
  let y ← pdpResampleScaleBilin (toInt32 srcW) (toInt32 srcH) dstW dstH
  let c ← pdpResampleScaleBilin (srcW / 2 : Nat) (srcH / 2 : Nat) (dstW / 2) (dstH / 2)
  pure (y ++ c.map (.shift srcVoffset dstVoffset) ++ c.map (.shift srcUoffset dstUoffset))

/-- `_pdp_packet_image_convert_resample_YCrCb`. -/
def pdpPacketImageConvertResampleYCrCb (packet : Int) (destTemplate : Symbol) : PoolProg Int :=
  withHeader packet fun header =>
    checked (pdpDescriptionGetDims destTemplate) fun dims =>
      let dstW := dims.getD 0 0
      let dstH := dims.getD 1 0
      convertInto packet (pdpPacketNewImageYCrCb (ofInt32 dstW) (ofInt32 dstH))
        (resampleYCrCb header.info.width header.info.height dstW dstH)

/-- The planes of `_pdp_packet_image_convert_resample_multi`.  Counted down from
a negative number, `depth` never gets to 0. -/
def resampleMulti (srcW srcH : Nat) (dstW dstH depth : Int) : Option (List Step) := do
  let srcSize := u32 (srcW * srcH)
  let dstSize := ofInt32 (← intMul dstW dstH)
  if depth < 0 then none
  else stepsForM depth.toNat fun k => do
    let l ← pdpResampleScaleBilin (toInt32 srcW) (toInt32 srcH) dstW dstH
    pure (l.map (.shift (k * srcSize) (k * dstSize)))

/-- `_pdp_packet_image_convert_resample_multi`. -/
def pdpPacketImageConvertResampleMulti (packet : Int) (destTemplate : Symbol) : PoolProg Int :=
  withHeader packet fun header =>
    checked (pdpDescriptionGetDims destTemplate) fun dims =>
      let dstW := dims.getD 0 0
      let dstH := dims.getD 1 0
      let depth := dims.getD 2 0
      let w := header.info.width
      let h := header.info.height
      if depth = 0 then
        convertInto packet (pdpPacketNewImageGrey (ofInt32 dstW) (ofInt32 dstH))
          (resampleMulti w h dstW dstH 1)
      else
        convertInto packet
          (pdpPacketNewImageMchp (ofInt32 dstW) (ofInt32 dstH) (ofInt32 depth))
          (resampleMulti w h dstW dstH depth)

/-- `_pdp_packet_image_convert_fallback` and `_pdp_packet_bitmap_convert_fallback`. -/
def pdpPacketConvertFallback : PoolProg Int := pure (-1)

/-! ## Between image and bitmap -/

/-- `_pdp_packet_bitmap_convert_grey_to_grey8`. -/
def pdpPacketBitmapConvertGreyToGrey8 (packet : Int) : PoolProg Int := do
  match ← call (.header packet) with
  | none => pure (-1)
  | some image =>
      let w := image.info.width
      let h := image.info.height
      let encoding := image.info.encoding
      if !pdpPacketImageIsvalid image then pure (-1)
      else if ¬ (encoding = pdpImageGREY ∨ encoding = pdpImageYV12) then pure (-1)
      else
        convertInto packet (pdpPacketNewBitmapGrey w h)
          (pdpLlconv .greyS16 .greyU8 (toInt32 w) (toInt32 h))

/-- `_pdp_packet_bitmap_convert_grey8_to_grey`. -/
def pdpPacketBitmapConvertGrey8ToGrey (packet : Int) : PoolProg Int :=
  withHeader packet fun bitmap =>
    let w := bitmap.info.width
    let h := bitmap.info.height
    convertInto packet (pdpPacketNewImageGrey w h)
      (pdpLlconv .greyU8 .greyS16 (toInt32 w) (toInt32 h))

/-- `_pdp_packet_bitmap_convert_YCrCb_to_rgb8`. -/
def pdpPacketBitmapConvertYCrCbToRgb8 (packet : Int) : PoolProg Int := do
  match ← call (.header packet) with
  | none => pure (-1)
  | some image =>
      let w := image.info.width
      let h := image.info.height
      if !pdpPacketImageIsvalid image then pure (-1)
      else if image.info.encoding ≠ pdpImageYV12 then pure (-1)
      else
        convertInto packet (pdpPacketNewBitmapRgb w h)
          (pdpLlconv .yvuP411S16 .rgbPU8 (toInt32 w) (toInt32 h))

/-- `_pdp_packet_bitmap_convert_image_to_yv12`. -/
def pdpPacketBitmapConvertImageToYv12 (packet : Int) : PoolProg Int :=
  withHeader packet fun image =>
    let w := image.info.width
    let h := image.info.height
    let nbpixels := u32 (w * h)
    if !pdpPacketImageIsvalid image then pure (-1)
    else do
      let newP ← pdpPacketNewBitmapYv12 w h
      if newP = -1 then pure (-1)
      else if image.info.encoding = pdpImageYV12 then
        fill packet newP (pdpLlconv .yvuP411S16 .yvuP411U8 (toInt32 w) (toInt32 h))
      else if image.info.encoding = pdpImageGREY then
        fill packet newP do
          let luma ← pdpLlconv .greyS16 .greyU8 (toInt32 w) (toInt32 h)
          pure (luma ++ memsetSteps nbpixels 0x80 (nbpixels / 2))
      else do
        call (.markUnused newP)
        pure (-1)

/-- `_pdp_packet_bitmap_convert_yv12_to_image`. -/
def pdpPacketBitmapConvertYv12ToImage (packet : Int) : PoolProg Int :=
  withHeader packet fun bitmap =>
    let w := bitmap.info.width
    let h := bitmap.info.height
    convertInto packet (pdpPacketNewImageYCrCb w h)
      (pdpLlconv .yvuP411U8 .yvuP411S16 (toInt32 w) (toInt32 h))

/-- `_pdp_packet_bitmap_convert_rgb8_to_YCrCb`. -/
def pdpPacketBitmapConvertRgb8ToYCrCb (packet : Int) : PoolProg Int :=
  withHeader packet fun bitmap =>
    let w := bitmap.info.width
    let h := bitmap.info.height
    convertInto packet (pdpPacketNewImageYCrCb w h)
      (pdpLlconv .rgbPU8 .yvuP411S16 (toInt32 w) (toInt32 h))

/-- `_pdp_packet_bitmap_convert_rgb8_to_bitmap_YCrCb`. -/
def pdpPacketBitmapConvertRgb8ToBitmapYCrCb (packet : Int) : PoolProg Int :=
  withHeader packet fun bitmap =>
    let w := bitmap.info.width
    let h := bitmap.info.height
    convertInto packet (pdpPacketNewBitmapYv12 w h)
      (pdpLlconv .rgbPU8 .yvuP411U8 (toInt32 w) (toInt32 h))

/-- `_pdp_packet_bitmap_convert_rgb8_to_mchp`. -/
def pdpPacketBitmapConvertRgb8ToMchp (packet : Int) : PoolProg Int :=
  withHeader packet fun bitmap =>
    let w := bitmap.info.width
    let h := bitmap.info.height
    checked (intMul (toInt32 w) (toInt32 h)) fun plane =>
      convertInto packet (pdpPacketNewImageMchp w h 3) <| some <| stepsFor plane.toNat fun i =>
        [.map u8 s16 i (3 * i + 0) fun v => v * 2 ^ 7,
          .map u8 s16 (i + plane) (3 * i + 1) fun v => v * 2 ^ 7,
          .map u8 s16 (i + plane * 2) (3 * i + 2) fun v => v * 2 ^ 7]

/-- `_map` in `_pdp_packet_bitmap_convert_mchp_to_rgb8`: a negative sample
becomes 0. -/
def mapSample (pixel : Int) : Int := if pixel < 0 then 0 else pixel / 2 ^ 7

/-- The loops of `_pdp_packet_bitmap_convert_mchp_to_rgb8`, for `n` channels. -/
def interleave (n : Nat) (plane : Int) : List Step :=
  stepsFor plane.toNat fun i => (List.range n).map fun c =>
    .map s16 u8 (n * i + c) (i + plane * c) mapSample

/-- `_pdp_packet_bitmap_convert_mchp_to_rgb8`. -/
def pdpPacketBitmapConvertMchpToRgb8 (packet : Int) : PoolProg Int :=
  withHeader packet fun image =>
    let w := image.info.width
    let h := image.info.height
    let nbChannels := toInt32 image.info.depth
    checked (intMul (toInt32 w) (toInt32 h)) fun plane =>
      if nbChannels = 1 then
        convertInto packet (pdpPacketNewBitmapGrey w h) (some (interleave 1 plane))
      else if nbChannels = 3 then
        convertInto packet (pdpPacketNewBitmapRgb w h) (some (interleave 3 plane))
      else if nbChannels = 4 then
        convertInto packet (pdpPacketNewBitmapRgba w h) (some (interleave 4 plane))
      else pure (-1)

/-! ## From bitmap to bitmap -/

/-- The copies of `_pdp_packet_bitmap_convert_yv12_tofrom_i420`. -/
def swapChroma (w h : Int) : Option (List Step) := do
  let plane ← intMul w h
  let luma ← memcpyInt plane
  let quarter := plane.tdiv 4
  let l ← memcpyInt quarter
  pure (luma ++ l.map (.shift (plane + quarter) plane) ++
    l.map (.shift plane (plane + quarter)))

/-- `_pdp_packet_bitmap_convert_yv12_tofrom_i420`. -/
def pdpPacketBitmapConvertYv12TofromI420 (packet : Int) : PoolProg Int :=
  withHeader packet fun bitmap =>
    let w := bitmap.info.width
    let h := bitmap.info.height
    if bitmap.info.encoding = pdpBitmapYV12 then
      convertInto packet (pdpPacketNewBitmap pdpBitmapI420 w h) (swapChroma (toInt32 w) (toInt32 h))
    else if bitmap.info.encoding = pdpBitmapI420 then
      convertInto packet (pdpPacketNewBitmap pdpBitmapYV12 w h) (swapChroma (toInt32 w) (toInt32 h))
    else pure (-1)

/-- `_pdp_packet_bitmap_convert_rgb8_to_rgba8`. -/
def pdpPacketBitmapConvertRgb8ToRgba8 (packet : Int) : PoolProg Int :=
  withHeader packet fun bitmap =>
    let w := bitmap.info.width
    let h := bitmap.info.height
    convertInto packet (pdpPacketNewBitmapRgba w h) do
      let n ← intMul (toInt32 w) (toInt32 h)
      pure <| stepsFor n.toNat fun i =>
        [.map u8 u8 (4 * i + 0) (3 * i + 0) id, .map u8 u8 (4 * i + 1) (3 * i + 1) id,
          .map u8 u8 (4 * i + 2) (3 * i + 2) id, .const u8 (4 * i + 3) 0]

/-- `_pdp_packet_bitmap_convert_rgba8_to_rgb8`. -/
def pdpPacketBitmapConvertRgba8ToRgb8 (packet : Int) : PoolProg Int :=
  withHeader packet fun bitmap =>
    let w := bitmap.info.width
    let h := bitmap.info.height
    convertInto packet (pdpPacketNewBitmapRgb w h) do
      let n ← intMul (toInt32 w) (toInt32 h)
      pure <| stepsFor n.toNat fun i =>
        [.map u8 u8 (3 * i + 0) (4 * i + 0) id, .map u8 u8 (3 * i + 1) (4 * i + 1) id,
          .map u8 u8 (3 * i + 2) (4 * i + 2) id]

/-! ## The tables -/

/-- The methods, under the names of the types they convert. -/
inductive ConversionMethod where
  | imageYCrCbToGrey | imageGreyToYCrCb | imageGreyToMulti | imageMultiToYCrCb
  | imageYCrCbToMulti | imageResampleYCrCb | imageResampleMulti | imageFallback
  | bitmapGreyToGrey8 | bitmapGrey8ToGrey | bitmapYCrCbToRgb8 | bitmapImageToYv12
  | bitmapYv12ToImage | bitmapRgb8ToYCrCb | bitmapRgb8ToMchp | bitmapMchpToRgb8
  | bitmapYv12TofromI420 | bitmapRgb8ToRgba8 | bitmapRgba8ToRgb8 | bitmapRgb8ToBitmapYCrCb
  | bitmapFallback
deriving DecidableEq

def ConversionMethod.code (packet : Int) (destTemplate : Symbol) : ConversionMethod → PoolProg Int
  | imageYCrCbToGrey => pdpPacketImageConvertYCrCbToGrey packet
  | imageGreyToYCrCb => pdpPacketImageConvertGreyToYCrCb packet
  | imageGreyToMulti => pdpPacketImageConvertGreyToMulti packet
  | imageMultiToYCrCb => pdpPacketImageConvertMultiToYCrCb packet
  | imageYCrCbToMulti => pdpPacketImageConvertYCrCbToMulti packet
  | imageResampleYCrCb => pdpPacketImageConvertResampleYCrCb packet destTemplate
  | imageResampleMulti => pdpPacketImageConvertResampleMulti packet destTemplate
  | imageFallback => pdpPacketConvertFallback
  | bitmapGreyToGrey8 => pdpPacketBitmapConvertGreyToGrey8 packet
  | bitmapGrey8ToGrey => pdpPacketBitmapConvertGrey8ToGrey packet
  | bitmapYCrCbToRgb8 => pdpPacketBitmapConvertYCrCbToRgb8 packet
  | bitmapImageToYv12 => pdpPacketBitmapConvertImageToYv12 packet
  | bitmapYv12ToImage => pdpPacketBitmapConvertYv12ToImage packet
  | bitmapRgb8ToYCrCb => pdpPacketBitmapConvertRgb8ToYCrCb packet
  | bitmapRgb8ToMchp => pdpPacketBitmapConvertRgb8ToMchp packet
  | bitmapMchpToRgb8 => pdpPacketBitmapConvertMchpToRgb8 packet
  | bitmapYv12TofromI420 => pdpPacketBitmapConvertYv12TofromI420 packet
  | bitmapRgb8ToRgba8 => pdpPacketBitmapConvertRgb8ToRgba8 packet
  | bitmapRgba8ToRgb8 => pdpPacketBitmapConvertRgba8ToRgb8 packet
  | bitmapRgb8ToBitmapYCrCb => pdpPacketBitmapConvertRgb8ToBitmapYCrCb packet
  | bitmapFallback => pdpPacketConvertFallback

/-- A call of `pdp_type_register_conversion`, with a program of one line. -/
structure Registration where
  srcPattern : Symbol
  dstPattern : Symbol
  method : ConversionMethod

/-- What `pdp_image_setup` registers. -/
def pdpImageSetup : List Registration :=
  [⟨"image/YCrCb/*".toList, "image/grey/*".toList, .imageYCrCbToGrey⟩,
    ⟨"image/multi/*".toList, "image/grey/*".toList, .imageYCrCbToGrey⟩,
    ⟨"image/grey/*".toList, "image/YCrCb/*".toList, .imageGreyToYCrCb⟩,
    ⟨"image/grey/*".toList, "image/multi/*".toList, .imageGreyToMulti⟩,
    ⟨"image/multi/*".toList, "image/YCrCb/*".toList, .imageMultiToYCrCb⟩,
    ⟨"image/YCrCb/*".toList, "image/multi/*".toList, .imageYCrCbToMulti⟩,
    ⟨"image/YCrCb/*".toList, "image/YCrCb/*".toList, .imageResampleYCrCb⟩,
    ⟨"image/multi/*".toList, "image/multi/*".toList, .imageResampleMulti⟩,
    ⟨"image/grey/*".toList, "image/grey/*".toList, .imageResampleMulti⟩,
    ⟨"image/*/*".toList, "image/*/*".toList, .imageFallback⟩]

/-- What `pdp_bitmap_setup` registers. -/
def pdpBitmapSetup : List Registration :=
  [⟨"image/grey/*".toList, "bitmap/grey/*".toList, .bitmapGreyToGrey8⟩,
    ⟨"bitmap/grey/*".toList, "image/grey/*".toList, .bitmapGrey8ToGrey⟩,
    ⟨"image/YCrCb/*".toList, "bitmap/rgb/*".toList, .bitmapYCrCbToRgb8⟩,
    ⟨"image/YCrCb/*".toList, "bitmap/yv12/*".toList, .bitmapImageToYv12⟩,
    ⟨"image/grey/*".toList, "bitmap/yv12/*".toList, .bitmapImageToYv12⟩,
    ⟨"image/YCrCb/*".toList, "bitmap/*".toList, .bitmapImageToYv12⟩,
    ⟨"image/grey/*".toList, "bitmap/*".toList, .bitmapImageToYv12⟩,
    ⟨"bitmap/yv12/*".toList, "image/YCrCb/*".toList, .bitmapYv12ToImage⟩,
    ⟨"bitmap/rgb/*".toList, "image/YCrCb/*".toList, .bitmapRgb8ToYCrCb⟩,
    ⟨"bitmap/rgb/*".toList, "image/multi/*".toList, .bitmapRgb8ToMchp⟩,
    ⟨"image/multi/*".toList, "bitmap/*/*".toList, .bitmapMchpToRgb8⟩,
    ⟨"bitmap/yv12/*".toList, "bitmap/i420/*".toList, .bitmapYv12TofromI420⟩,
    ⟨"bitmap/i420/*".toList, "bitmap/yv12/*".toList, .bitmapYv12TofromI420⟩,
    ⟨"bitmap/rgb/*".toList, "bitmap/rgba/*".toList, .bitmapRgb8ToRgba8⟩,
    ⟨"bitmap/rgba/*".toList, "bitmap/rgb/*".toList, .bitmapRgba8ToRgb8⟩,
    ⟨"bitmap/rgb/*".toList, "image/*/*".toList, .bitmapRgb8ToYCrCb⟩,
    ⟨"bitmap/rgb/*".toList, "bitmap/yv12/*".toList, .bitmapRgb8ToBitmapYCrCb⟩,
    ⟨"image/*/*".toList, "bitmap/*/*".toList, .bitmapFallback⟩,
    ⟨"bitmap/*/*".toList, "image/*/*".toList, .bitmapFallback⟩,
    ⟨"bitmap/*/*".toList, "bitmap/*/*".toList, .bitmapFallback⟩]

/-- The entry of `conversion_list` that a registration makes. -/
def Registration.conversion (c : Registration) : Conversion where
  srcPattern := c.srcPattern
  dstPattern := c.dstPattern
  program := ⟨fun packet template s => (c.method.code packet template).run s, []⟩

/-- `conversion_list` after the setup of both types. -/
def conversionList : List Conversion :=
  (pdpImageSetup ++ pdpBitmapSetup).map Registration.conversion

end PureDataPacket
