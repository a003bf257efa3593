/-
# `PureDataPacket.Type.Image` — 16 bit image packets

The constructors of image packets, their descriptions
(`image/YCrCb/320x240`), and the factory that builds a packet from a
description.  Sizes are computed in `u32`, as the code does: the product of
two large dimensions wraps.
-/
import PureDataPacket.Kernel.PoolOp

namespace PureDataPacket

open PoolProg (call)

/-! ## Encodings -/

/-- `PDP_IMAGE`, the data type of an image packet. -/
def pdpImage : Nat := 1

/-- `PDP_IMAGE_YV12`. -/
def pdpImageYV12 : Nat := 1

/-- `PDP_IMAGE_GREY`. -/
def pdpImageGREY : Nat := 2

/-- `PDP_IMAGE_MCHP`. -/
def pdpImageMCHP : Nat := 4

/-- `image_class`. -/
def imageClass : PdpClass where
  type := some "image/*/*".toList
  create := some .pdpImageFactory
  copy := none
  cleanup := false

/-! ## Descriptions -/

/-- `sprintf("%d")` of an `unsigned int`. -/
def printDim (n : Nat) : List Char := printInt (toInt32 n)

/-- The words between `image` and the dimensions. -/
def imageEncodingName (encoding : Nat) : Option (List Char) :=
  if encoding = pdpImageYV12 then some "/YCrCb".toList
  else if encoding = pdpImageGREY then some "/grey".toList
  else if encoding = pdpImageMCHP then some "/multi".toList
  else none

/-- `pdp_packet_image_get_description`. -/
def pdpPacketImageGetDescription : Option Meta → Symbol
  | none => symInvalid
  | some header =>
      match header.desc with
      | some d => d
      | none =>
          if header.type = pdpImage then
            let image := header.info
            match imageEncodingName image.encoding with
            | none => "image/unknown".toList
            | some name =>
                "image".toList ++ name ++ '/' :: printDim image.width ++
                  'x' :: printDim image.height ++
                  if image.encoding = pdpImageMCHP then 'x' :: printDim image.depth else []
          else symUnknown

/-! ## Constructors -/

/-- What every constructor does: a packet of the computed size, then the
header, with the subheader filled in first. -/
def construct (datatype packetSize : Nat) (init : Meta → Meta) : PoolProg Int := do
  let packet ← call (.new datatype packetSize)
  match ← call (.header packet) with
  | none => pure (-1)
  | some header => do
      call (.writeHeader packet (init header.toMeta))
      pure packet

/-- The header fields set by an image constructor; only one of them sets the
depth. -/
def imageHeader (encoding w h : Nat) (d : Option Nat) (header : Meta) : Meta :=
  let depth := d.getD header.info.depth
  let header := { header with
    info := { header.info with encoding := encoding, width := w, height := h, depth := depth } }
  { header with
    desc := some (pdpPacketImageGetDescription (some header))
    theclass := some imageClass }

/-- `packet_size` in `pdp_packet_new_image_YCrCb`. -/
def imageSizeYCrCb (w h : Nat) : Nat :=
  let size := u32 (w * h)
  let totalnbpixels := u32 (size + size / 2)
  u32 (totalnbpixels * 2)

/-- `pdp_packet_new_image_YCrCb`. -/
def pdpPacketNewImageYCrCb (w h : Nat) : PoolProg Int :=
  construct pdpImage (imageSizeYCrCb w h) (imageHeader pdpImageYV12 w h none)

/-- `packet_size` in `pdp_packet_new_image_grey`. -/
def imageSizeGrey (w h : Nat) : Nat := u32 (u32 (w * h) * 2)

/-- `pdp_packet_new_image_grey`. -/
def pdpPacketNewImageGrey (w h : Nat) : PoolProg Int :=
  construct pdpImage (imageSizeGrey w h) (imageHeader pdpImageGREY w h none)

/-- `packet_size` in `pdp_packet_new_image_mchp`. -/
def imageSizeMchp (w h d : Nat) : Nat := u32 (u32 (u32 (w * h) * d) * 2)

/-- `pdp_packet_new_image_mchp`. -/
def pdpPacketNewImageMchp (w h d : Nat) : PoolProg Int :=
  construct pdpImage (imageSizeMchp w h d) (imageHeader pdpImageMCHP w h (some d))

/-- `pdp_packet_new_image`. -/
def pdpPacketNewImage (type w h : Nat) : PoolProg Int :=
  if type = pdpImageYV12 then pdpPacketNewImageYCrCb w h
  else if type = pdpImageGREY then pdpPacketNewImageGrey w h
  else pure (-1)

/-! ## The factory -/

/-- The image type that a factory reads from the second word. -/
def imageEncodingOf (s : Symbol) : Option Nat :=
  if s = "grey".toList then some pdpImageGREY
  else if s = "YCrCb".toList then some pdpImageYV12
  else if s = "multi".toList then some pdpImageMCHP
  else none

/-- The `i`-th variable of a `sscanf`, initialised to 0 and then passed on as
a `u32`. -/
def scannedDim (dims : List Int) (i : Nat) : Nat := ofInt32 (dims.getD i 0)

/-- The end of a factory: a packet whose description is not the wanted one is
deleted. -/
def keepExact (type : Symbol) (p : Int) : PoolProg Int := do
  if p = -1 then pure (-1)
  else
    match ← call (.header p) with
    | none => .crash .nullHeader
    | some header =>
        if some type ≠ header.desc then do
          call (.delete p)
          pure (-1)
        else pure p

/-- The constructor call of `pdp_image_factory`. -/
def imageFactoryNew (t : Nat) (s : Symbol) : PoolProg Int :=
  if t = pdpImageMCHP then
    let dims := scanDims 3 s
    pdpPacketNewImageMchp (scannedDim dims 0) (scannedDim dims 1) (scannedDim dims 2)
  else
    let dims := scanDims 2 s
    pdpPacketNewImage t (scannedDim dims 0) (scannedDim dims 1)

/-- `pdp_image_factory`.  Each `pdp_list_pop` needs one more word. -/
def pdpImageFactory (type : Symbol) : PoolProg Int :=
  match pdpTypeToList type with
  | _ :: s :: l =>
      match imageEncodingOf s with
      | none => pure (-1)
      | some t =>
          match l with
          | [] => .crash .emptyPop
          | s :: _ => do
              let p ← imageFactoryNew t s
              keepExact type p
  | _ => .crash .emptyPop

end PureDataPacket
