/-
# `PureDataPacket.Type.Bitmap` — 8 bit image packets

Constructors, descriptions (`bitmap/rgb/320x240`) and factory of bitmap
packets.  The factory knows three of the five encodings: asked for an `rgba`
or `i420` bitmap it creates nothing.
-/
import PureDataPacket.Type.Image

namespace PureDataPacket

open PoolProg (call)

/-! ## Encodings -/

/-- `PDP_BITMAP`. -/
def pdpBitmap : Nat := 6

/-- `PDP_BITMAP_RGB`. -/
def pdpBitmapRGB : Nat := 0x32424752

/-- `PDP_BITMAP_RGBA`. -/
def pdpBitmapRGBA : Nat := 0x41424752

/-- `PDP_BITMAP_GREY`. -/
def pdpBitmapGREY : Nat := 0x59455247

/-- `PDP_BITMAP_I420`. -/
def pdpBitmapI420 : Nat := 0x30323449

/-- `PDP_BITMAP_YV12`. -/
def pdpBitmapYV12 : Nat := 0x32315659

/-- `bitmap_class`. -/
def bitmapClass : PdpClass where
  type := some "bitmap/*/*".toList
  create := some .pdpBitmapFactory
  copy := none
  cleanup := false

/-! ## Descriptions -/

/-- The words between `bitmap` and the dimensions. -/
def bitmapEncodingName (encoding : Nat) : Option (List Char) :=
  if encoding = pdpBitmapRGB then some "/rgb".toList
  else if encoding = pdpBitmapRGBA then some "/rgba".toList
  else if encoding = pdpBitmapGREY then some "/grey".toList
  else if encoding = pdpBitmapYV12 then some "/yv12".toList
  else if encoding = pdpBitmapI420 then some "/i420".toList
  else none

/-- `pdp_packet_bitmap_get_description`. -/
def pdpPacketBitmapGetDescription : Option Meta → Symbol
  | none => symInvalid
  | some header =>
      match header.desc with
      | some d => d
      | none =>
          if header.type = pdpBitmap then
            let bitmap := header.info
            match bitmapEncodingName bitmap.encoding with
            | none => "bitmap/unknown".toList
            | some name =>
                "bitmap".toList ++ name ++ '/' :: printDim bitmap.width ++
                  'x' :: printDim bitmap.height
          else symUnknown

/-! ## Constructors -/

/-- The header fields set by a bitmap constructor. -/
def bitmapHeader (encoding w h : Nat) (header : Meta) : Meta :=
  let header := { header with
    info := { header.info with encoding := encoding, width := w, height := h } }
  { header with
    desc := some (pdpPacketBitmapGetDescription (some header))
    theclass := some bitmapClass }

/-- `packet_size` in `pdp_packet_new_bitmap_yv12`. -/
def bitmapSizeYv12 (w h : Nat) : Nat :=
  let size := u32 (w * h)
  u32 (size + size / 2)

/-- `pdp_packet_new_bitmap_yv12`. -/
def pdpPacketNewBitmapYv12 (w h : Nat) : PoolProg Int :=
  construct pdpBitmap (bitmapSizeYv12 w h) (bitmapHeader pdpBitmapYV12 w h)

/-- The header fields set again by `pdp_packet_new_bitmap_i420`. -/
def i420Header (header : Meta) : Meta :=
  let header := { header with info := { header.info with encoding := pdpBitmapI420 }, desc := none }
  { header with desc := some (pdpPacketBitmapGetDescription (some header)) }

/-- `pdp_packet_new_bitmap_i420`: a `yv12` packet under another name. -/
def pdpPacketNewBitmapI420 (w h : Nat) : PoolProg Int := do
  let p ← pdpPacketNewBitmapYv12 w h
  if p = -1 then pure (-1)
  else
    match ← call (.header p) with
    | none => .crash .nullHeader
    | some header => do
        call (.writeHeader p (i420Header header.toMeta))
        pure p

/-- `packet_size` in the constructors with `n` bytes to a pixel. -/
def bitmapSizePacked (n w h : Nat) : Nat := u32 (u32 (w * h) * n)

/-- `pdp_packet_new_bitmap_grey`. -/
def pdpPacketNewBitmapGrey (w h : Nat) : PoolProg Int :=
  construct pdpBitmap (bitmapSizePacked 1 w h) (bitmapHeader pdpBitmapGREY w h)

/-- `pdp_packet_new_bitmap_rgb`. -/
def pdpPacketNewBitmapRgb (w h : Nat) : PoolProg Int :=
  construct pdpBitmap (bitmapSizePacked 3 w h) (bitmapHeader pdpBitmapRGB w h)

/-- `pdp_packet_new_bitmap_rgba`. -/
def pdpPacketNewBitmapRgba (w h : Nat) : PoolProg Int :=
  construct pdpBitmap (bitmapSizePacked 4 w h) (bitmapHeader pdpBitmapRGBA w h)

/-- `pdp_packet_new_bitmap`. -/
def pdpPacketNewBitmap (type w h : Nat) : PoolProg Int :=
  if type = pdpBitmapGREY then pdpPacketNewBitmapGrey w h
  else if type = pdpBitmapYV12 then pdpPacketNewBitmapYv12 w h
  else if type = pdpBitmapI420 then pdpPacketNewBitmapI420 w h
  else if type = pdpBitmapRGB then pdpPacketNewBitmapRgb w h
  else if type = pdpBitmapRGBA then pdpPacketNewBitmapRgba w h
  else pure (-1)

/-! ## The factory -/

/-- The bitmap type that the factory reads from the second word. -/
def bitmapEncodingOf (s : Symbol) : Option Nat :=
  if s = "grey".toList then some pdpBitmapGREY
  else if s = "yv12".toList then some pdpBitmapYV12
  else if s = "rgb".toList then some pdpBitmapRGB
  else none

/-- `pdp_bitmap_factory`. -/
def pdpBitmapFactory (type : Symbol) : PoolProg Int :=
  match pdpTypeToList type with
  | _ :: s :: l =>
      match bitmapEncodingOf s with
      | none => pure (-1)
      | some t =>
          match l with
          | [] => .crash .emptyPop
          | s :: _ => do
              let dims := scanDims 2 s
              let p ← pdpPacketNewBitmap t (scannedDim dims 0) (scannedDim dims 1)
              keepExact type p
  | _ => .crash .emptyPop

end PureDataPacket
