/-
# `PureDataPacket.Type.Png` — bitmaps in files

A bitmap is saved row by row, and a file is read into the rows of a packet made for it.  What the
library delivers for a row depends on the header of the file and on what it was asked to convert;
how large the packet is depends on the bitmap type, which is found from the same header by other
rules.

| | |
| :-- | :-- |
| `RowsInside` | what the library writes is inside the packet |
| `RoundTrips` | a file that was saved is read as it was |
| `png_right` | when both of them hold |

A comparison that is an assignment makes every image with colours, or with an alpha channel, an
`rgb` bitmap.
-/
import PureDataPacket.Lib.Bytes
import PureDataPacket.Type.Contract

namespace PureDataPacket

open Pool
open PoolProg (call)

namespace Png

/-! ## Files -/

/-- `PNG_COLOR_TYPE_…` -/
inductive ColorType where
  | gray
  | rgb
  | palette
  | grayAlpha
  | rgba
deriving DecidableEq

/-- The depths that the library accepts. -/
def ColorType.depths : ColorType → List Nat
  | .gray => [1, 2, 4, 8, 16]
  | .rgb => [8, 16]
  | .palette => [1, 2, 4, 8]
  | .grayAlpha => [8, 16]
  | .rgba => [8, 16]

/-- The fields of a header, and `png_get_valid(…, PNG_INFO_tRNS)`. -/
structure Header where
  width : Nat
  height : Nat
  bitDepth : Nat
  colorType : ColorType
  transparency : Bool
  depth_mem : bitDepth ∈ colorType.depths

/-- `png_set_expand` and `png_set_strip_16` -/
structure Transforms where
  expand : Bool
  strip16 : Bool

namespace Header

/-- How many channels the library delivers. -/
def channels (header : Header) (t : Transforms) : Nat :=
  match header.colorType with
  | .gray => if t.expand && header.transparency then 2 else 1
  | .rgb => if t.expand && header.transparency then 4 else 3
  | .palette => if t.expand then (if header.transparency then 4 else 3) else 1
  | .grayAlpha => 2
  | .rgba => 4

/-- And how many bits for each. -/
def depth (header : Header) (t : Transforms) : Nat :=
  if header.bitDepth = 16 then (if t.strip16 then 8 else 16)
  else if header.bitDepth < 8 ∧ t.expand then 8
  else header.bitDepth

/-- `png_get_rowbytes` -/
def rowBytes (header : Header) (t : Transforms) : Nat :=
  (header.width * header.channels t * header.depth t + 7) / 8

end Header

end Png

/-- A file: its header, and what the library writes through the pointer to each row. -/
structure Png where
  header : Png.Header
  rows : Png.Transforms → Nat → List UInt8
  length_rows : ∀ t, ∀ i < header.height, (rows t i).length = header.rowBytes t

namespace Png

/-! ## Bitmaps -/

/-- The bitmap types that have a colour type. -/
inductive BitmapType where
  | grey
  | rgb
  | rgba
deriving DecidableEq

namespace BitmapType

/-- `PDP_BITMAP_GREY`, `PDP_BITMAP_RGB`, `PDP_BITMAP_RGBA` -/
def encoding : BitmapType → Nat
  | grey => pdpBitmapGREY
  | rgb => pdpBitmapRGB
  | rgba => pdpBitmapRGBA

def nbchans : BitmapType → Nat
  | grey => 1
  | rgb => 3
  | rgba => 4

def colorType : BitmapType → ColorType
  | grey => .gray
  | rgb => .rgb
  | rgba => .rgba

def kind : BitmapType → PacketKind
  | grey => .bitmapGrey
  | rgb => .bitmapRgb
  | rgba => .bitmapRgba

end BitmapType

theorem depth_saved (type : BitmapType) : 8 ∈ type.colorType.depths := by
  cases type <;> decide

/-- The `switch` of `_saveimagedata`. -/
def bitmapTypeOf (encoding : Nat) : Option BitmapType :=
  if encoding = pdpBitmapGREY then some .grey
  else if encoding = pdpBitmapRGB then some .rgb
  else if encoding = pdpBitmapRGBA then some .rgba
  else none

/-- `nbchans * i * x->x_width`, a `png_uint_32`. -/
def rowOffset (nbchans width i : Nat) : Nat := u32 (u32 (nbchans * i) * width)

/-! ## Saving -/

/-- The header of a file that is saved. -/
def savedHeader (type : BitmapType) (width height : Nat) : Header :=
  ⟨width, height, 8, type.colorType, false, depth_saved type⟩

theorem rowBytes_saved (type : BitmapType) (width height : Nat) (t : Transforms) :
    (savedHeader type width height).rowBytes t = width * type.nbchans := by
  have hdepth : (savedHeader type width height).depth t = 8 := by
    unfold Header.depth savedHeader
    simp
  have hchannels : (savedHeader type width height).channels t = type.nbchans := by
    unfold Header.channels savedHeader
    cases type <;> simp [BitmapType.colorType, BitmapType.nbchans]
  unfold Header.rowBytes
  rw [hdepth, hchannels]
  change (width * type.nbchans * 8 + 7) / 8 = _
  omega

def savedRow (type : BitmapType) (width : Nat) (data : List UInt8) (i : Nat) : List UInt8 :=
  (data.drop (rowOffset type.nbchans width i)).take (width * type.nbchans)

theorem length_savedRow {type : BitmapType} {width height : Nat} {data : List UInt8}
    (h : ∀ i < height, rowOffset type.nbchans width i + width * type.nbchans ≤ data.length)
    (t : Transforms) : ∀ i < (savedHeader type width height).height,
      (savedRow type width data i).length = (savedHeader type width height).rowBytes t := by
  intro i hi
  have hinside := h i hi
  unfold savedRow
  rw [rowBytes_saved, List.length_take, List.length_drop]
  omega

/-- The loop that stores `row_pointers`, in a block that `pdp_alloc` is asked for with an `int`. -/
def storeRowPointers (height : Nat) : Except Fault Unit :=
  if toInt32 (8 * height) < 0 then .error .nullPointer
  else if toInt32 (8 * height) < 8 * height then .error .outOfBounds
  else .ok ()

theorem storeRowPointers_ok {height : Nat} (h : 8 * height < 2 ^ 31) :
    storeRowPointers height = .ok () := by
  have hsize : toInt32 (8 * height) = 8 * height := by
    exact_mod_cast toInt32_of_nat_lt h
  unfold storeRowPointers
  rw [hsize, if_neg (by omega), if_neg (by omega)]

theorem storeRowPointers_error {height : Nat} (h : ¬ 8 * height < 2 ^ 31) :
    ∃ e, storeRowPointers height = .error e := by
  obtain ⟨-, hlt⟩ := isInt_toInt32 (8 * height)
  unfold storeRowPointers
  split
  · exact ⟨_, rfl⟩
  · rw [if_pos (by omega)]
    exact ⟨_, rfl⟩

/-- `pdp_packet_bitmap_save_png_file`: the file, if one is written. -/
def pdpPacketBitmapSavePngFile (packet : Int) (s : Pool) : Except Fault (Option Png) :=
  match s.pdpPacketHeader packet with
  | none => .ok none
  | some h =>
      if pdpBitmap ≠ h.type then .ok none
      else
        match bitmapTypeOf h.info.encoding with
        | none => .ok none
        | some type =>
            let width := h.info.width
            let height := h.info.height
            let data := h.data.bytes
            (storeRowPointers height).bind fun _ =>
              if hrows : ∀ i < height,
                  rowOffset type.nbchans width i + width * type.nbchans ≤ data.length then
                .ok (some ⟨savedHeader type width height, fun _ i => savedRow type width data i,
                  length_savedRow hrows⟩)
              else .error .outOfBounds

/-! ## Loading -/

/-- `_checkimagetype`: the bitmap type, and what the library is asked to do.  Behind the grey images
the colour type is assigned instead of compared, and what is behind that is never reached. -/
def checkimagetype (header : Header) : Option (BitmapType × Transforms) :=
  if header.colorType = .palette ∧ header.bitDepth ≤ 8 then
    some (if header.transparency then .rgba else .rgb, ⟨true, false⟩)
  else
    let t : Transforms := ⟨header.bitDepth < 8, header.bitDepth = 16⟩
    if header.colorType = .gray then
      if header.transparency then none else some (.grey, t)
    else some (.rgb, t)

/-- `png_read_image`: the rows, one after the other. -/
def readImage (rows : Nat → List UInt8) (off : Nat → Nat) : Nat → List UInt8 → Option (List UInt8)
  | 0, data => some data
  | n + 1, data =>
      match readImage rows off n data with
      | none => none
      | some data =>
          if off n + (rows n).length ≤ data.length then some (blit data (off n) (rows n)) else none

/-- `_getimagedata`, and what `pdp_packet_bitmap_from_png_file` returns then. -/
def getimagedata (png : Png) (type : BitmapType) (t : Transforms) : PoolProg Int := do
  let width := png.header.width
  let height := png.header.height
  let packet ← pdpPacketNewBitmap type.encoding width height
  match ← call (.header packet) with
  | none => pure (-1)
  | some h =>
      let off := rowOffset type.nbchans width
      writeFilled packet (readImage (png.rows t) off height h.data.bytes)

/-- `pdp_packet_bitmap_from_png_file`. -/
def pdpPacketBitmapFromPngFile (png : Png) : PoolProg Int :=
  match checkimagetype png.header with
  | none => pure (-1)
  | some (type, t) => getimagedata png type t

/-! ## What should be -/

/-- Every row that the library delivers is inside the packet. -/
def RowsInside (header : Header) (type : BitmapType) (t : Transforms) (q : Packet) : Prop :=
  ∀ i < header.height,
    rowOffset type.nbchans header.width i + header.rowBytes t ≤ q.data.size

/-- The packet is saved, and if there is room for another one, the file is read as the same. -/
def RoundTrips (type : BitmapType) (width height : Nat) (packet : Int) (p : Packet) (s : Pool) :
    Prop :=
  ∃ png, pdpPacketBitmapSavePngFile packet s = .ok (some png) ∧
    ∀ s' r s₁, (type.kind.new width height 0).run s' = .ok (r, s₁) → r ≠ -1 →
      ∃ t q, (pdpPacketBitmapFromPngFile png).run s' = .ok (r, t) ∧
        t.pdpPacketHeader r = some q ∧ Built type.kind width height 0 q ∧
          q.data.bytes = p.data.bytes

/-! ## What the library delivers -/

section Delivered

variable {header : Header} {type : BitmapType} {t : Transforms}

/-- The channels of an accepted file are those of the bitmap type, unless it has an alpha channel of
its own. -/
inductive Delivers (header : Header) (type : BitmapType) (t : Transforms) : Prop
  | same (hchannels : header.channels t = type.nbchans) (hne : header.colorType ≠ .rgba)
  | grayAlpha (hchannels : header.channels t = 2) (htype : type = .rgb)
      (hne : header.colorType ≠ .rgba)
  | rgba (hchannels : header.channels t = 4) (htype : type = .rgb) (heq : header.colorType = .rgba)

theorem accepted_cases (h : checkimagetype header = some (type, t)) :
    header.colorType = .palette ∧ type = (if header.transparency then .rgba else .rgb) ∧
        t = ⟨true, false⟩ ∨
      header.colorType = .gray ∧ header.transparency = false ∧ type = .grey ∧
        t = ⟨header.bitDepth < 8, header.bitDepth = 16⟩ ∨
      header.colorType ≠ .palette ∧ header.colorType ≠ .gray ∧ type = .rgb ∧
        t = ⟨header.bitDepth < 8, header.bitDepth = 16⟩ := by
  unfold checkimagetype at h
  split at h
  · next hpalette =>
      obtain ⟨rfl, rfl⟩ := Prod.mk.inj (Option.some.inj h)
      exact Or.inl ⟨hpalette.1, rfl, rfl⟩
  · next hpalette =>
      have hne : header.colorType ≠ .palette := by
        intro hcolor
        have hmem := header.depth_mem
        rw [hcolor] at hmem
        refine hpalette ⟨hcolor, ?_⟩
        simp only [ColorType.depths, List.mem_cons, List.not_mem_nil, or_false] at hmem
        omega
      dsimp only at h
      split at h
      · next hgray =>
          split at h
          · cases h
          · next htransparency =>
              obtain ⟨rfl, rfl⟩ := Prod.mk.inj (Option.some.inj h)
              exact Or.inr (Or.inl ⟨hgray, eq_false_of_ne_true htransparency, rfl, rfl⟩)
      · next hgray =>
          obtain ⟨rfl, rfl⟩ := Prod.mk.inj (Option.some.inj h)
          exact Or.inr (Or.inr ⟨hne, hgray, rfl, rfl⟩)

theorem depth_accepted (h : checkimagetype header = some (type, t)) : header.depth t = 8 := by
  have hmem := header.depth_mem
  have hdepths : header.bitDepth = 16 ∨ header.bitDepth ≤ 8 := by
    cases hcolor : header.colorType <;> rw [hcolor] at hmem <;>
      simp only [ColorType.depths, List.mem_cons, List.not_mem_nil, or_false] at hmem <;> omega
  unfold Header.depth
  rcases accepted_cases h with ⟨hcolor, _, rfl⟩ | ⟨_, _, _, rfl⟩ | ⟨_, _, _, rfl⟩
  · rw [hcolor] at hmem
    simp only [ColorType.depths, List.mem_cons, List.not_mem_nil, or_false] at hmem
    rw [if_neg (by omega)]
    simp only [and_true]
    split <;> omega
  · simp only [decide_eq_true_eq, and_self]
    grind
  · simp only [decide_eq_true_eq, and_self]
    grind

theorem rowBytes_accepted (h : checkimagetype header = some (type, t)) :
    header.rowBytes t = header.width * header.channels t := by
  unfold Header.rowBytes
  rw [depth_accepted h]
  omega

theorem delivers_accepted (h : checkimagetype header = some (type, t)) :
    Delivers header type t := by
  rcases accepted_cases h with ⟨hcolor, rfl, rfl⟩ | ⟨hcolor, htransparency, rfl, rfl⟩ |
    ⟨hpalette, hgray, rfl, rfl⟩
  · refine .same ?_ (by rw [hcolor]; decide)
    unfold Header.channels
    rw [hcolor]
    cases header.transparency <;> rfl
  · refine .same ?_ (by rw [hcolor]; decide)
    unfold Header.channels
    rw [hcolor, htransparency, Bool.and_false]
    rfl
  · cases hcolor : header.colorType with
    | palette => exact absurd hcolor hpalette
    | gray => exact absurd hcolor hgray
    | rgb =>
        have hmem := header.depth_mem
        rw [hcolor] at hmem
        simp only [ColorType.depths, List.mem_cons, List.not_mem_nil, or_false] at hmem
        have hexpand : ¬ header.bitDepth < 8 := by omega
        refine .same ?_ (by rw [hcolor]; decide)
        unfold Header.channels
        rw [hcolor]
        dsimp only
        rw [decide_eq_false hexpand, Bool.false_and]
        rfl
    | grayAlpha =>
        refine .grayAlpha ?_ rfl (by rw [hcolor]; decide)
        unfold Header.channels
        rw [hcolor]
    | rgba =>
        refine .rgba ?_ rfl hcolor
        unfold Header.channels
        rw [hcolor]

end Delivered

/-! ## Rows and the packet -/

section Rows

variable {type : BitmapType} {w h d n i : Nat}

/-- The place of a row, and the size of the packet, are cut to 32 bits. -/
theorem rowOffset_eq : rowOffset n w i = n * w * i % 2 ^ 32 := by
  unfold rowOffset u32
  rw [Nat.mod_mul_mod, Nat.mul_right_comm]

theorem dataSize_kind : type.kind.dataSize w h 0 = type.nbchans * w * h % 2 ^ 32 := by
  have hsize : type.kind.dataSize w h 0 = bitmapSizePacked type.nbchans w h := by
    cases type <;> rfl
  rw [hsize]
  unfold bitmapSizePacked u32
  rw [Nat.mod_mul_mod, Nat.mul_comm, ← Nat.mul_assoc]

theorem rows_of_lt (hlt : n * w * h < 2 ^ 32) (hd : d ≤ n) :
    ∀ i < h, rowOffset n w i + w * d ≤ n * w * h % 2 ^ 32 := by
  intro i hi
  have hnext : n * w * (i + 1) ≤ n * w * h := Nat.mul_le_mul_left _ hi
  have hrow : w * d ≤ n * w := by
    rw [Nat.mul_comm n]
    exact Nat.mul_le_mul_left _ hd
  rw [Nat.mul_succ] at hnext
  rw [rowOffset_eq, Nat.mod_eq_of_lt hlt, Nat.mod_eq_of_lt (by omega)]
  omega

/-- If the size overflows, some row begins behind the end of the packet. -/
theorem rows_of_ge (hge : 2 ^ 32 ≤ n * w * h) (hsize : n * w * h % 2 ^ 32 < 2 ^ 31)
    (hd : d = n ∨ n = 3 ∧ d = 2 ∨ n = 3 ∧ d = 4) :
    ¬ ∀ i < h, rowOffset n w i + w * d ≤ n * w * h % 2 ^ 32 := by
  intro hall
  have hpos : 0 < h := by
    refine Nat.pos_of_ne_zero fun hzero => ?_
    rw [hzero, Nat.mul_zero] at hge
    exact absurd hge (by decide)
  have hrow := hall 0 hpos
  have hspos : 0 < n * w := by
    refine Nat.pos_of_ne_zero fun hzero => ?_
    rw [hzero, Nat.zero_mul] at hge
    exact absurd hge (by decide)
  rcases Nat.lt_or_ge (2 ^ 31) (n * w) with hlarge | hsmall
  · -- The second row is already in the upper half.
    have hwidth : n * w < 2 ^ 32 := by
      have hle : w * d < 2 ^ 31 := by omega
      rcases hd with rfl | ⟨rfl, rfl⟩ | ⟨rfl, rfl⟩
      · rw [Nat.mul_comm] at hlarge
        omega
      · omega
      · omega
    have htwo : 1 < h := by
      refine Nat.lt_of_not_le fun hle => ?_
      have hone : h = 1 := by omega
      rw [hone, Nat.mul_one] at hge
      omega
    have hsecond := hall 1 htwo
    rw [rowOffset_eq, Nat.mul_one, Nat.mod_eq_of_lt hwidth] at hsecond
    omega
  · -- The rows are so short that one of them begins in the upper half.
    have hdiv := Nat.div_add_mod (2 ^ 32 - 1) (n * w)
    have hmod := Nat.mod_lt (2 ^ 32 - 1) hspos
    generalize (2 ^ 32 - 1) / (n * w) = j at hdiv
    have hj : j < h := by
      refine Nat.lt_of_not_le fun hle => ?_
      have hmul := Nat.mul_le_mul_left (n * w) hle
      omega
    have hlast := hall j hj
    rw [rowOffset_eq, Nat.mod_eq_of_lt (by omega)] at hlast
    omega

/-- The last row has four bytes to a pixel where there is room for three. -/
theorem rows_of_rgba (hw : 0 < w) (hh : 0 < h) (hlt : 3 * w * h < 2 ^ 32) :
    ¬ ∀ i < h, rowOffset 3 w i + w * 4 ≤ 3 * w * h % 2 ^ 32 := by
  intro hall
  have hlast := hall (h - 1) (Nat.sub_lt hh Nat.zero_lt_one)
  have hsucc : 3 * w * h = 3 * w * (h - 1) + 3 * w := by
    rw [← Nat.mul_succ, Nat.succ_eq_add_one, Nat.sub_add_cancel hh]
  rw [rowOffset_eq, Nat.mod_eq_of_lt hlt, Nat.mod_eq_of_lt (by omega)] at hlast
  omega

/-- The rows of a file are inside the packet that is made for it. -/
theorem rowsInside_iff {header : Header} {t : Transforms} {q : Packet}
    (htype : checkimagetype header = some (type, t))
    (hq : Built type.kind header.width header.height 0 q) : RowsInside header type t q ↔
      header.width = 0 ∨ header.height = 0 ∨ header.colorType ≠ .rgba ∧
        type.nbchans * header.width * header.height < 2 ^ 32 := by
  have hsize := hq.size
  have hlt := q.data.size_lt
  change q.data.size + pdpHeaderSize < 2 ^ 31 at hlt
  rw [hsize, dataSize_kind] at hlt
  have hbytes := rowBytes_accepted htype
  unfold RowsInside
  rw [hsize, dataSize_kind, hbytes]
  have hdelivers := delivers_accepted htype
  clear htype hq hsize hbytes
  generalize header.width = w at hlt ⊢
  generalize header.height = h at hlt ⊢
  rcases Nat.eq_zero_or_pos w with rfl | hw
  · refine iff_of_true (fun i _ => ?_) (Or.inl rfl)
    rw [rowOffset_eq, Nat.mul_zero, Nat.zero_mul, Nat.zero_mul]
    exact Nat.zero_le _
  · rcases Nat.eq_zero_or_pos h with rfl | hh
    · exact iff_of_true (fun i hi => absurd hi (Nat.not_lt_zero i)) (Or.inr (Or.inl rfl))
    · have hrest : ∀ a : Prop, (w = 0 ∨ h = 0 ∨ a) ↔ a := fun a =>
        (or_iff_right (Nat.ne_of_gt hw)).trans (or_iff_right (Nat.ne_of_gt hh))
      rw [hrest]
      rcases Nat.lt_or_ge (type.nbchans * w * h) (2 ^ 32) with hfits | hover
      · cases hdelivers with
        | same hchannels hne =>
            exact iff_of_true (rows_of_lt hfits (Nat.le_of_eq hchannels)) ⟨hne, hfits⟩
        | grayAlpha hchannels hrgb hne =>
            subst hrgb
            exact iff_of_true (rows_of_lt hfits (hchannels.symm ▸ (by decide))) ⟨hne, hfits⟩
        | rgba hchannels hrgb heq =>
            subst hrgb
            rw [hchannels]
            exact iff_of_false (rows_of_rgba hw hh hfits) fun hcond => hcond.1 heq
      · have hsmall : type.nbchans * w * h % 2 ^ 32 < 2 ^ 31 := by omega
        refine iff_of_false (rows_of_ge hover hsmall ?_) fun hcond => by omega
        cases hdelivers with
        | same hchannels hne => exact Or.inl hchannels
        | grayAlpha hchannels hrgb hne =>
            subst hrgb
            exact Or.inr (Or.inl ⟨rfl, hchannels⟩)
        | rgba hchannels hrgb heq =>
            subst hrgb
            exact Or.inr (Or.inr ⟨rfl, hchannels⟩)

/-- The rows of a bitmap are inside of it unless its size has overflowed. -/
theorem savedRows_iff {p : Packet} (hp : Built type.kind w h 0 p) :
    (∀ i < h, rowOffset type.nbchans w i + w * type.nbchans ≤ p.data.bytes.length) ↔
      type.nbchans * w * h < 2 ^ 32 := by
  have hsize := hp.size
  have hlt := p.data.size_lt
  change p.data.bytes.length = _ at hsize
  rw [hsize, dataSize_kind] at hlt ⊢
  rcases Nat.lt_or_ge (type.nbchans * w * h) (2 ^ 32) with hfits | hover
  · exact iff_of_true (rows_of_lt hfits (Nat.le_refl _)) hfits
  · exact iff_of_false (rows_of_ge hover (by omega) (Or.inl rfl)) (Nat.not_lt.mpr hover)

end Rows

/-! ## A row after the other -/

section Read

variable {rows : Nat → List UInt8} {off : Nat → Nat} {n c : Nat} {data data' src : List UInt8}

theorem length_readImage (h : readImage rows off n data = some data') :
    data'.length = data.length := by
  induction n generalizing data' with
  | zero =>
      cases h
      rfl
  | succ n ih =>
      unfold readImage at h
      split at h
      · cases h
      · next before hbefore =>
          split at h
          · next hfits =>
              cases h
              exact (length_blit hfits).trans (ih hbefore)
          · cases h

/-- The chunks of a bitmap, put in their places, are the bitmap. -/
theorem readImage_chunks (hoff : ∀ i < n, off i = c * i) (hrows : ∀ i < n, rows i = chunk c i src)
    (hlength : data.length = src.length) (hsrc : src.length = c * n) :
    readImage rows off n data = some src := by
  have hpart : ∀ k ≤ n, ∃ buf, readImage rows off k data = some buf ∧ buf.length = src.length ∧
      ∀ i < k, AgreesAt c i buf src := by
    intro k
    induction k with
    | zero => exact fun _ => ⟨data, rfl, hlength, fun i hi => absurd hi (Nat.not_lt_zero i)⟩
    | succ k ih =>
        intro hk
        obtain ⟨buf, hread, hbuf, hagrees⟩ := ih (Nat.le_of_succ_le hk)
        have hend := Nat.mul_le_mul_left c hk
        rw [Nat.mul_succ, ← hsrc] at hend
        have hfits : off k + (rows k).length ≤ buf.length := by
          rw [hoff k hk, hrows k hk, length_chunk, hbuf]
          omega
        refine ⟨blit buf (off k) (rows k), ?_, (length_blit hfits).trans hbuf, fun i hi => ?_⟩
        · unfold readImage
          rw [hread]
          exact if_pos hfits
        · rw [hoff k hk, hrows k hk]
          rcases Nat.eq_zero_or_pos c with hzero | hpos
          · intro j hj
            omega
          · have hinside : c * k < src.length := by omega
            rcases Nat.lt_succ_iff_lt_or_eq.mp hi with hlt | rfl
            · exact agreesAt_blit_other hbuf hinside (Nat.ne_of_gt hlt) (hagrees i hlt)
            · exact agreesAt_blit_self hbuf hinside
  obtain ⟨buf, hread, hbuf, hagrees⟩ := hpart n (Nat.le_refl n)
  rw [hread]
  congr 1
  rcases Nat.eq_zero_or_pos c with hzero | hpos
  · rw [hzero, Nat.zero_mul] at hsrc
    rw [List.length_eq_zero_iff.mp hsrc, List.length_eq_zero_iff.mp (hbuf.trans hsrc)]
  · exact eq_of_agreesAt hpos hbuf (Nat.le_of_eq hsrc) hagrees

end Read

/-! ## Runs of the programs -/

section Run

variable {png : Png} {type : BitmapType} {t : Transforms} {s s₁ : Pool} {r : Int} {m : Meta}
  {data : DataArea} {bytes : List UInt8} {q : Packet} {w h : Nat}

theorem pdpPacketNewBitmap_eq : pdpPacketNewBitmap type.encoding w h = type.kind.new w h 0 := by
  cases type <;> rfl

theorem run_getimagedata
    (hrun : (type.kind.new png.header.width png.header.height 0).run s = .ok (r, s₁)) :
    (getimagedata png type t).run s =
      match s₁.pdpPacketHeader r with
      | none => .ok (-1, s₁)
      | some q => (writeFilled r (readImage (png.rows t) (rowOffset type.nbchans png.header.width)
          png.header.height q.data.bytes)).run s₁ := by
  rw [← pdpPacketNewBitmap_eq] at hrun
  have hheader : PoolOp.exec (.header r) s₁ = .ok (s₁.pdpPacketHeader r, s₁) := rfl
  refine (Prog.run_bind_ok hrun).trans ((Prog.run_act_ok hheader).trans ?_)
  cases s₁.pdpPacketHeader r with
  | none => rfl
  | some q => rfl

/-- A bitmap is saved if there is room for its row pointers and its rows are inside of it. -/
theorem save_of_built {p : Packet} {packet : Int} (hp : Built type.kind w h 0 p)
    (hs : s.pdpPacketHeader packet = some p) : pdpPacketBitmapSavePngFile packet s =
      (storeRowPointers h).bind fun _ =>
        if hrows : ∀ i < h, rowOffset type.nbchans w i + w * type.nbchans ≤ p.data.bytes.length then
          .ok (some ⟨savedHeader type w h, fun _ i => savedRow type w p.data.bytes i,
            length_savedRow hrows⟩)
        else .error .outOfBounds := by
  have htype : p.type = pdpBitmap := hp.type.trans (by cases type <;> rfl)
  have hencoding : bitmapTypeOf p.info.encoding = some type := by
    rw [hp.encoding]
    cases type <;> rfl
  obtain rfl := hp.width
  obtain rfl := hp.height
  unfold pdpPacketBitmapSavePngFile
  rw [hs]
  dsimp only
  rw [if_neg (fun hne => hne htype.symm), hencoding]

theorem save_eq {p : Packet} {packet : Int} (hp : Built type.kind w h 0 p)
    (hs : s.pdpPacketHeader packet = some p) (hrows : 8 * h < 2 ^ 31)
    (hfits : type.nbchans * w * h < 2 ^ 32) :
    pdpPacketBitmapSavePngFile packet s = .ok (some ⟨savedHeader type w h,
      fun _ i => savedRow type w p.data.bytes i,
      length_savedRow ((savedRows_iff hp).mpr hfits)⟩) := by
  rw [save_of_built hp hs, storeRowPointers_ok hrows]
  exact dif_pos ((savedRows_iff hp).mpr hfits)

theorem save_overflow {p : Packet} {packet : Int} (hp : Built type.kind w h 0 p)
    (hs : s.pdpPacketHeader packet = some p)
    (hover : ¬ (8 * h < 2 ^ 31 ∧ type.nbchans * w * h < 2 ^ 32)) :
    ∃ e, pdpPacketBitmapSavePngFile packet s = .error e := by
  rw [save_of_built hp hs]
  by_cases hrows : 8 * h < 2 ^ 31
  · rw [storeRowPointers_ok hrows]
    exact ⟨_, dif_neg fun hinside => hover ⟨hrows, (savedRows_iff hp).mp hinside⟩⟩
  · obtain ⟨e, he⟩ := storeRowPointers_error hrows
    rw [he]
    exact ⟨e, rfl⟩

/-- A file that was saved is taken for what it was, or for an `rgb` bitmap. -/
theorem checkimagetype_saved : checkimagetype (savedHeader type w h) =
    some (if type = .rgba then .rgb else type, ⟨false, false⟩) := by
  cases type <;> rfl

/-- What is loaded has the header of the bitmap type. -/
theorem header_getimagedata {p : Packet} (hrun : (getimagedata png type t).run s = .ok (r, s₁))
    (hne : r ≠ -1) (hr : s₁.pdpPacketHeader r = some p) : p.info.encoding = type.encoding := by
  have hc := type.kind.constructs png.header.width png.header.height 0
  rcases hc.run_cases (type.kind.dataSize_lt _ _ _) s with ⟨e, hmake, _⟩ | ⟨s₂, hmake⟩ |
    ⟨_, r', s₂, data, hmake, hheader, hsize, _⟩
  · rw [← pdpPacketNewBitmap_eq] at hmake
    have herror : (getimagedata png type t).run s = .error e := by
      change Prog.run PoolOp.exec ((pdpPacketNewBitmap _ _ _).bind _) s = _
      rw [Prog.run_bind, show Prog.run PoolOp.exec _ s = .error e from hmake]
    cases herror.symm.trans hrun
  · rw [run_getimagedata hmake, header_neg_one] at hrun
    cases hrun
    exact absurd rfl hne
  · rw [run_getimagedata hmake, hheader] at hrun
    dsimp only at hrun
    cases hread : readImage (png.rows t) (rowOffset type.nbchans png.header.width)
        png.header.height data.bytes with
    | none =>
        rw [hread] at hrun
        cases hrun
    | some bytes =>
        obtain ⟨s₃, data', hwrite, hheader', _⟩ := run_writeFilled hheader (length_readImage hread)
        rw [hread, hwrite] at hrun
        cases hrun
        rw [hheader'] at hr
        cases hr
        cases type <;> rfl

/-- The rows that were saved are put where they were. -/
theorem readImage_saved {p : Packet} {data : List UInt8} (hp : Built type.kind w h 0 p)
    (hfits : type.nbchans * w * h < 2 ^ 32) (hlength : data.length = p.data.bytes.length) :
    readImage (savedRow type w p.data.bytes) (rowOffset type.nbchans w) h data =
      some p.data.bytes := by
  have hsize : p.data.bytes.length = type.nbchans * w * h := by
    have hbytes := hp.size
    rw [dataSize_kind, Nat.mod_eq_of_lt hfits] at hbytes
    exact hbytes
  have hoff : ∀ i < h, rowOffset type.nbchans w i = type.nbchans * w * i := by
    intro i hi
    rw [rowOffset_eq, Nat.mod_eq_of_lt]
    exact Nat.lt_of_le_of_lt (Nat.mul_le_mul_left _ (Nat.le_of_lt hi)) hfits
  refine readImage_chunks hoff (fun i hi => ?_) hlength hsize
  unfold savedRow chunk
  rw [hoff i hi, Nat.mul_comm w]

/-- A file of a `grey` or `rgb` bitmap is loaded as that bitmap. -/
theorem run_load_saved {p : Packet} (hp : Built type.kind w h 0 p)
    (hfits : type.nbchans * w * h < 2 ^ 32) (hrgba : type ≠ .rgba) (hheader : png.header =
      savedHeader type w h) (hrows : ∀ t, png.rows t = savedRow type w p.data.bytes)
    (hmake : (type.kind.new w h 0).run s = .ok (r, s₁)) (hne : r ≠ -1) :
    ∃ t q, (pdpPacketBitmapFromPngFile png).run s = .ok (r, t) ∧ t.pdpPacketHeader r = some q ∧
      Built type.kind w h 0 q ∧ q.data.bytes = p.data.bytes := by
  have hload : pdpPacketBitmapFromPngFile png = getimagedata png type ⟨false, false⟩ := by
    unfold pdpPacketBitmapFromPngFile
    rw [hheader, checkimagetype_saved, if_neg hrgba]
  have hwidth : png.header.width = w := by rw [hheader, savedHeader]
  have hheight : png.header.height = h := by rw [hheader, savedHeader]
  rcases (type.kind.constructs w h 0).run_cases (type.kind.dataSize_lt _ _ _) s with
    ⟨e, hrun, _⟩ | ⟨s₂, hrun⟩ | ⟨_, r', s₂, data, hrun, hr, hsize, _⟩
  · cases hrun.symm.trans hmake
  · cases hrun.symm.trans hmake
    exact absurd rfl hne
  · cases hrun.symm.trans hmake
    have hlength : data.bytes.length = p.data.bytes.length := hsize.trans hp.size.symm
    obtain ⟨s₃, data', hwrite, hr', hbytes⟩ := run_writeFilled hr hlength.symm
    refine ⟨s₃, _, ?_, hr', ?_, hbytes⟩
    · rw [hload, run_getimagedata (by rw [hwidth, hheight]; exact hmake), hr, hwidth, hheight,
        hrows]
      dsimp only
      rw [readImage_saved hp hfits hlength, hwrite]
    · refine built_header hp.width_lt hp.height_lt hp.depth_lt ?_
      change data'.bytes.length = _
      rw [hbytes]
      exact hp.size

/-- There is a pool with room for another packet of the same kind. -/
theorem exists_room {p : Packet} (hp : Built type.kind w h 0 p) :
    ∃ s r s₁, (type.kind.new w h 0).run s = .ok (r, s₁) ∧ r ≠ -1 := by
  have hfit : Fitting (type.kind.dataSize w h 0) := by
    rw [← hp.size]
    exact p.data.size_lt
  have hu : 0 < { p with users := 1 }.users := Nat.one_pos
  obtain ⟨s₁, hrun, _⟩ := run_recycled (type.kind.constructs w h 0) hu hfit hp.size
  exact ⟨_, 1, s₁, hrun, by decide⟩

/-- Loading undoes saving for all bitmaps but those with an alpha channel. -/
theorem roundTrips_iff {p : Packet} {packet : Int} (hp : Built type.kind w h 0 p)
    (hs : s.pdpPacketHeader packet = some p) : RoundTrips type w h packet p s ↔
      type ≠ .rgba ∧ 8 * h < 2 ^ 31 ∧ type.nbchans * w * h < 2 ^ 32 := by
  constructor
  · rintro ⟨png, hsave, hload⟩
    have hfits : 8 * h < 2 ^ 31 ∧ type.nbchans * w * h < 2 ^ 32 := by
      by_contra hover
      obtain ⟨e, he⟩ := save_overflow hp hs hover
      cases hsave.symm.trans he
    refine ⟨?_, hfits⟩
    rintro rfl
    cases (save_eq hp hs hfits.1 hfits.2).symm.trans hsave
    obtain ⟨s', r, s₁, hmake, hne⟩ := exists_room hp
    obtain ⟨t, q, hrun, hr, hq, _⟩ := hload s' r s₁ hmake hne
    -- The file is taken for one without an alpha channel.
    have hencoding : q.info.encoding = BitmapType.rgb.encoding := header_getimagedata hrun hne hr
    rw [hq.encoding] at hencoding
    cases hencoding
  · rintro ⟨hrgba, hrows, hfits⟩
    refine ⟨_, save_eq hp hs hrows hfits, fun s' r s₁ hmake hne => ?_⟩
    exact run_load_saved hp hfits hrgba rfl (fun _ => rfl) hmake hne

end Run

/-! ## Both directions -/

/-- What the library delivers stays inside the packet that is made for it unless there is an alpha
channel or the packet is too large, and what was saved is loaded again under the same conditions,
if there are not too many rows for an `int` to count the bytes of their pointers. -/
theorem png_right {type : BitmapType} {w h : Nat} {p : Packet} (hp : Built type.kind w h 0 p) :
    (∀ header t, header.width = w → header.height = h →
      checkimagetype header = some (type, t) → (RowsInside header type t p ↔
        w = 0 ∨ h = 0 ∨ header.colorType ≠ .rgba ∧ type.nbchans * w * h < 2 ^ 32)) ∧
    ∀ packet s, s.pdpPacketHeader packet = some p →
      (RoundTrips type w h packet p s ↔
        type ≠ .rgba ∧ 8 * h < 2 ^ 31 ∧ type.nbchans * w * h < 2 ^ 32) := by
  refine ⟨fun header t hw hh htype => ?_, fun packet s hs => roundTrips_iff hp hs⟩
  subst hw hh
  exact rowsInside_iff htype hp

theorem pixel_lt (type : BitmapType) :
    (List.replicate type.nbchans (0 : UInt8)).length + pdpHeaderSize < 2 ^ 31 := by
  cases type <;> decide

def pixel (type : BitmapType) : Packet :=
  ⟨type.kind.header 1 1 0, 1, ⟨List.replicate type.nbchans 0, pixel_lt type⟩⟩

theorem pixel_built (type : BitmapType) : Built type.kind 1 1 0 (pixel type) :=
  built_header (by decide) (by decide) (by decide) (by cases type <;> decide)

/-- A pool with such a bitmap. -/
def pixelPool (type : BitmapType) : Pool := recycling (pixel type) (pixel type).data

theorem header_pixelPool (type : BitmapType) :
    (pixelPool type).pdpPacketHeader 0 = some (pixel type) := rfl

/-- One pixel without an alpha channel. -/
theorem png_right_pixel :
    RowsInside (savedHeader .rgb 1 1) .rgb ⟨false, false⟩ (pixel .rgb) ∧
      RoundTrips .rgb 1 1 0 (pixel .rgb) (pixelPool .rgb) :=
  ⟨((png_right (pixel_built .rgb)).1 (savedHeader .rgb 1 1) ⟨false, false⟩ rfl rfl rfl).mpr
      (Or.inr (Or.inr (by decide))),
    ((png_right (pixel_built .rgb)).2 0 (pixelPool .rgb) rfl).mpr (by decide)⟩

/-- One pixel with an alpha channel: the file is accepted, four bytes are written where there is
room for three, and the bitmap that was saved is not the one that is loaded. -/
theorem not_png_right :
    (Built .bitmapRgba 1 1 0 (pixel .rgba) ∧
        (pixelPool .rgba).pdpPacketHeader 0 = some (pixel .rgba) ∧
        ¬ RoundTrips .rgba 1 1 0 (pixel .rgba) (pixelPool .rgba)) ∧
      checkimagetype (savedHeader .rgba 1 1) = some (.rgb, ⟨false, false⟩) ∧
        Built .bitmapRgb 1 1 0 (pixel .rgb) ∧
        ¬ RowsInside (savedHeader .rgba 1 1) .rgb ⟨false, false⟩ (pixel .rgb) := by
  have hheader := header_pixelPool .rgba
  have htype : checkimagetype (savedHeader .rgba 1 1) = some (.rgb, ⟨false, false⟩) := rfl
  refine ⟨⟨pixel_built .rgba, hheader, fun htrip => ?_⟩, htype, pixel_built .rgb, fun hrows => ?_⟩
  · exact ((roundTrips_iff (pixel_built .rgba) hheader).mp htrip).1 rfl
  · rcases (rowsInside_iff htype (pixel_built .rgb)).mp hrows with hzero | hzero | ⟨hne, _⟩
    · cases hzero
    · cases hzero
    · exact hne rfl

end Png

end PureDataPacket
