/-
# `PureDataPacket.Image.Flip` — images upside down and left to right

`pdp_llconv_flip_top_bottom` exchanges rows of bytes, word by word and the rest byte by byte;
`pdp_imageproc_flip_lr_process` exchanges pixels of 16 bits.  Both work in place, with two
pointers that approach each other.

The memory is that of the image and nothing else: `none` is an access outside the image, or a
product that is no `int`.

| | |
| :-- | :-- |
| `PixelsMoved` | each pixel has what was in the pixel that `f` says |
| `exchangeRow_spec` | a row of any size changes places with another one |
| `flipRows_spec` | the rows from `lo` to `hi` are put in the opposite order |
| `flipLine_spec` | the pixels from `lo` to `hi` are put in the opposite order |
| `flipLr_spec` | column `x` moves to column `w - 1 - x` |
| `flipTopBottom_spec` | row `y` moves to row `h - 1 - y` |
-/
import PureDataPacket.Image.Agreement
import PureDataPacket.Image.Scaling
import PureDataPacket.Kernel.Packet
import PureDataPacket.Lib.Elements
import PureDataPacket.Lib.Exchange
import PureDataPacket.Lib.Lanes

namespace PureDataPacket

/-! ## Top to bottom -/

/-- `mask`, of the sizes that have a word left: `~((unsigned int)sizeof(int) - 1)`. -/
def wordMask : Nat := 2 ^ 32 - 4

/-- The rest bytes of `_exchange_row`. -/
def exchangeRowBytes : (row1 row2 size : Nat) → List UInt8 → Option (List UInt8)
  | _, _, 0, m => some m
  | row1, row2, size + 1, m => do
      let m ← exchange 1 row1 row2 m
      exchangeRowBytes (row1 + 1) (row2 + 1) size m

/-- `_exchange_row`, for a size that is not negative. -/
def exchangeRow (row1 row2 size : Nat) (m : List UInt8) : Option (List UInt8) :=
  if hmask : size &&& wordMask ≠ 0 then do
    let m ← exchange 4 row1 row2 m
    exchangeRow (row1 + 4) (row2 + 4) (size - 4) m
  else exchangeRowBytes row1 row2 size m
termination_by size
decreasing_by
  have hpos : size ≠ 0 := fun h0 => hmask (by rw [h0, Nat.zero_and])
  omega

/-- The loop of `pdp_llconv_flip_top_bottom`.  The pointers would never meet if `linesize` were
not positive. -/
def flipRows (linesize : Int) (row1 row2 : Int) (m : List UInt8) : Option (List UInt8) :=
  if row1 < row2 then
    if 0 < linesize then do
      let m ← exchangeRow row1.toNat row2.toNat linesize.toNat m
      flipRows linesize (row1 + linesize) (row2 - linesize) m
    else none
  else some m
termination_by (row2 - row1).toNat

/-- `pdp_llconv_flip_top_bottom`. -/
def pdpLlconvFlipTopBottom (width height pixelsize : Int) (data : List UInt8) :
    Option (List UInt8) := do
  let linesize ← intMul width pixelsize
  let rows ← checkedS32 (height - 1)
  let row2 ← intMul linesize rows
  if height ≤ 1 then return data
  if width ≤ 0 then return data
  flipRows linesize 0 row2 data

/-- `pdp_imageproc_flip_tb_process`. -/
def pdpImageprocFlipTbProcess (width height : Nat) (image : List UInt8) : Option (List UInt8) :=
  pdpLlconvFlipTopBottom (toInt32 width) (toInt32 height) 2 image

/-! ## Left to right -/

/-- The inner loop of `pdp_imageproc_flip_lr_process`, for pixels `l` and `r`. -/
def flipLine (l r : Int) (m : List UInt8) : Option (List UInt8) :=
  if l < r then do
    let m ← exchange 2 (2 * l).toNat (2 * r).toNat m
    flipLine (l + 1) (r - 1) m
  else some m
termination_by (r - l).toNat

/-- `pdp_imageproc_flip_lr_process`. -/
def pdpImageprocFlipLrProcess (width height : Nat) (image : List UInt8) : Option (List UInt8) :=
  rounds (fun y m => flipLine (width * y) (width * y + width - 1) m) height 0 image

/-! ## Rows -/

section Rows

variable {m : List UInt8} {row1 row2 size lo hi : Nat}

theorem land_wordMask (h : size < 2 ^ 32) : size &&& wordMask ≠ 0 ↔ 4 ≤ size := by
  have hlanes := @land_lanes 2 (size % 4) (size / 4) 0 (2 ^ 30 - 1) (by omega) (by omega)
  have hsize : 2 ^ 2 * (size / 4) + size % 4 = size := Nat.div_add_mod size 4
  have hmask : 2 ^ 2 * (2 ^ 30 - 1) + 0 = wordMask := rfl
  rw [hsize, hmask, Nat.and_zero, Nat.add_zero, Nat.and_two_pow_sub_one_eq_mod,
    Nat.mod_eq_of_lt (by omega)] at hlanes
  rw [hlanes]
  omega

theorem exchangeRowBytes_spec (hrows : row1 + size ≤ row2) (hlen : row2 + size ≤ m.length) :
    ∃ out, exchangeRowBytes row1 row2 size m = some out ∧
      Moved (exchanged size row1 row2) m out := by
  induction size generalizing row1 row2 m with
  | zero =>
      refine ⟨m, rfl, (Moved.refl m).congr fun i _ => ?_⟩
      unfold exchanged
      rw [if_neg (by omega), if_neg (by omega)]
      rfl
  | succ size ih =>
      obtain ⟨m', hm', hmoved⟩ := @exchange_spec _ 1 row1 row2 m (by omega) (by omega)
      obtain ⟨out, hout, hmoved'⟩ := @ih m' (row1 + 1) (row2 + 1) (by omega)
        (by rw [hmoved.length]; omega)
      refine ⟨out, ?_, (hmoved.trans hmoved').congr fun i _ => ?_⟩
      · rw [exchangeRowBytes, hm']
        exact hout
      · rw [exchanged_add (by omega), Nat.add_comm]

theorem exchangeRow_spec (hsize : size < 2 ^ 32) (hrows : row1 + size ≤ row2)
    (hlen : row2 + size ≤ m.length) : ∃ out, exchangeRow row1 row2 size m = some out ∧
      Moved (exchanged size row1 row2) m out := by
  induction size using Nat.strong_induction_on generalizing row1 row2 m with
  | _ size ih =>
      rw [exchangeRow]
      split
      · next hmask =>
          have hword := (land_wordMask hsize).mp hmask
          obtain ⟨m', hm', hmoved⟩ := @exchange_spec _ 4 row1 row2 m (by omega) (by omega)
          obtain ⟨out, hout, hmoved'⟩ := @ih (size - 4) (by omega) m' (row1 + 4) (row2 + 4)
            (by omega) (by omega) (by rw [hmoved.length]; omega)
          refine ⟨out, ?_, (hmoved.trans hmoved').congr fun i _ => ?_⟩
          · rw [hm']
            exact hout
          · rw [exchanged_add (by omega), Nat.add_sub_cancel' hword]
      · exact exchangeRowBytes_spec hrows hlen

theorem flipRows_spec (h0 : 0 < size) (hsize : size < 2 ^ 32)
    (hlen : size * (hi + 1) ≤ m.length) : ∃ out,
      flipRows size (size * lo : Nat) (size * hi : Nat) m = some out ∧
        Moved (pieceMove size (mirrored lo hi)) m out := by
  induction hn : hi - lo using Nat.strong_induction_on generalizing lo hi m with
  | _ n ih =>
      rw [flipRows]
      by_cases hlt : lo < hi
      · have hrows : size * lo + size ≤ size * hi := by
          rw [← Nat.mul_succ]
          exact Nat.mul_le_mul_left size hlt
        have hlast : size * (hi + 1) = size * hi + size := Nat.mul_succ size hi
        have hlo : size * (lo + 1) = size * lo + size := Nat.mul_succ size lo
        have hhi : size * hi = size * (hi - 1) + size := by
          rw [← Nat.mul_succ, Nat.succ_eq_add_one, Nat.sub_add_cancel (by omega)]
        have hless : ((size * lo : Nat) : Int) < (size * hi : Nat) := by omega
        have hpos : (0 : Int) < size := by omega
        obtain ⟨m', hm', hmoved⟩ := @exchangeRow_spec m (size * lo) (size * hi) size hsize hrows
          (by omega)
        have hnext : ((size * lo : Nat) : Int) + size = (size * (lo + 1) : Nat) := by omega
        have hprev : ((size * hi : Nat) : Int) - size = (size * (hi - 1) : Nat) := by omega
        obtain ⟨out, hout, hmoved'⟩ := @ih (hi - 1 - (lo + 1)) (by omega) m' (lo + 1) (hi - 1)
          (by rw [hmoved.length, Nat.sub_add_cancel (by omega)]; omega) rfl
        refine ⟨out, ?_, (hmoved.trans hmoved').congr fun i _ => ?_⟩
        · rw [if_pos hless, if_pos hpos, Int.toNat_natCast, Int.toNat_natCast, Int.toNat_natCast,
            hm', hnext, hprev]
          exact hout
        · rw [exchanged_pieces h0, pieceMove_comp h0]
          exact congrArg (fun ρ => pieceMove size ρ i) (funext (swapped_mirrored hlt))
      · have hle : size * hi ≤ size * lo := Nat.mul_le_mul_left size (Nat.le_of_not_lt hlt)
        refine ⟨m, if_neg (by omega), (Moved.refl m).congr fun i _ => ?_⟩
        unfold pieceMove
        rw [mirrored_of_le (by omega), Nat.div_add_mod]
        rfl

theorem flipLine_spec (hlen : 2 * (hi + 1) ≤ m.length) : ∃ out,
    flipLine lo hi m = some out ∧ Moved (pieceMove 2 (mirrored lo hi)) m out := by
  induction hn : hi - lo using Nat.strong_induction_on generalizing lo hi m with
  | _ n ih =>
      rw [flipLine]
      by_cases hlt : lo < hi
      · have hless : (lo : Int) < hi := by omega
        have hl : (2 * (lo : Int)).toNat = 2 * lo := by omega
        have hr : (2 * (hi : Int)).toNat = 2 * hi := by omega
        obtain ⟨m', hm', hmoved⟩ := @exchange_spec _ 2 (2 * lo) (2 * hi) m (by omega) (by omega)
        have hprev : (hi : Int) - 1 = (hi - 1 : Nat) := by omega
        obtain ⟨out, hout, hmoved'⟩ := @ih (hi - 1 - (lo + 1)) (by omega) m' (lo + 1) (hi - 1)
          (by rw [hmoved.length]; omega) rfl
        refine ⟨out, ?_, (hmoved.trans hmoved').congr fun i _ => ?_⟩
        · rw [if_pos hless, hl, hr, hm', hprev]
          exact hout
        · rw [exchanged_pieces (by decide), pieceMove_comp (by decide)]
          exact congrArg (fun ρ => pieceMove 2 ρ i) (funext (swapped_mirrored hlt))
      · refine ⟨m, if_neg (by omega), (Moved.refl m).congr fun i _ => ?_⟩
        unfold pieceMove
        rw [mirrored_of_le (by omega), Nat.div_add_mod]
        rfl

end Rows

/-! ## Pixels -/

/-- Byte `b` of the pixel in column `x` and row `y`. -/
def pixelByte (w ps x y b : Nat) : Nat := ps * (w * y + x) + b

/-- Each pixel has what was in the pixel that `f` says. -/
structure PixelsMoved (w h ps : Nat) (f : Nat → Nat → Nat × Nat) (m out : List UInt8) : Prop where
  length : out.length = m.length
  get : ∀ y < h, ∀ x < w, ∀ b < ps,
    out[pixelByte w ps x y b]? = m[pixelByte w ps (f x y).1 (f x y).2 b]?

/-- `f` stays in the image. -/
def StaysInside (w h : Nat) (f : Nat → Nat → Nat × Nat) : Prop :=
  ∀ y < h, ∀ x < w, (f x y).1 < w ∧ (f x y).2 < h

section Pixels

variable {w h ps : Nat} {f g : Nat → Nat → Nat × Nat} {m m' out : List UInt8}

theorem pixelByte_row (w ps x y b : Nat) :
    pixelByte w ps x y b = w * ps * y + (ps * x + b) := by
  unfold pixelByte
  ring

theorem pixelByte_lt {x y b : Nat} (hx : x < w) (hy : y < h) (hb : b < ps) :
    pixelByte w ps x y b < ps * (w * h) := by
  have hpixel : w * y + x < w * h := add_mul_lt hy hx
  exact add_mul_lt hpixel hb

namespace PixelsMoved

theorem refl (m : List UInt8) : PixelsMoved w h ps (fun x y => (x, y)) m m :=
  ⟨rfl, fun _ _ _ _ _ _ => rfl⟩

theorem congr (hm : PixelsMoved w h ps f m out) (hfg : ∀ y < h, ∀ x < w, f x y = g x y) :
    PixelsMoved w h ps g m out where
  length := hm.length
  get y hy x hx b hb := by rw [hm.get y hy x hx b hb, hfg y hy x hx]

theorem trans (hm : PixelsMoved w h ps f m m') (hm' : PixelsMoved w h ps g m' out)
    (hg : StaysInside w h g) : PixelsMoved w h ps (fun x y => f (g x y).1 (g x y).2) m out where
  length := hm'.length.trans hm.length
  get y hy x hx b hb := by
    rw [hm'.get y hy x hx b hb, hm.get _ (hg y hy x hx).2 _ (hg y hy x hx).1 b hb]

theorem unique (hm : PixelsMoved w h ps f m out) (hm' : PixelsMoved w h ps f m m')
    (hlen : m.length = ps * (w * h)) : out = m' := by
  refine List.ext_getElem? fun i => ?_
  rcases Nat.lt_or_ge i (ps * (w * h)) with hi | hi
  · obtain ⟨q, hq, b, hb, rfl⟩ := exists_mul_add hi
    obtain ⟨y, hy, x, hx, rfl⟩ := exists_mul_add hq
    exact (hm.get y hy x hx b hb).trans (hm'.get y hy x hx b hb).symm
  · rw [List.getElem?_eq_none (by rw [hm.length, hlen]; exact hi),
      List.getElem?_eq_none (by rw [hm'.length, hlen]; exact hi)]

end PixelsMoved

/-! ## The two routines -/

theorem flipLine_row {y : Nat} (hy : y < h) (hlen : m.length = 2 * (w * h)) : ∃ out,
    flipLine (w * y) (w * y + w - 1) m = some out ∧
      PixelsMoved w h 2 (fun x y' => (if y' = y then w - 1 - x else x, y')) m out := by
  rcases Nat.eq_zero_or_pos w with rfl | hw
  · refine ⟨m, ?_, rfl, fun _ _ x hx => absurd hx (Nat.not_lt_zero x)⟩
    rw [flipLine, if_neg (by omega)]
  · have hle : w * (y + 1) ≤ w * h := Nat.mul_le_mul_left w hy
    rw [Nat.mul_succ] at hle
    have hlo : (w : Int) * y = (w * y : Nat) := (Nat.cast_mul _ _).symm
    have hhi : ((w * y : Nat) : Int) + w - 1 = (w * y + w - 1 : Nat) := by omega
    obtain ⟨out, hout, hmoved⟩ := @flipLine_spec m (w * y) (w * y + w - 1) (by omega)
    refine ⟨out, by rw [hlo, hhi]; exact hout, hmoved.length, fun y' hy' x hx b hb => ?_⟩
    have hget := hmoved.get _ (hlen ▸ pixelByte_lt hx hy' hb)
    have hinside := @piece_iff w y' y x hx
    have hmirror : mirrored (w * y) (w * y + w - 1) (w * y' + x) =
        w * y' + if y' = y then w - 1 - x else x := by
      unfold mirrored
      by_cases hsame : y' = y
      · rw [if_pos hsame, if_pos (by omega), hsame]
        omega
      · rw [if_neg hsame, if_neg (by omega)]
    rw [hget]
    unfold pixelByte
    rw [pieceMove_eq hb, hmirror]

theorem flipLr_rows {n y : Nat} (hn : y + n = h) (hlen : m.length = 2 * (w * h)) : ∃ out,
    rounds (fun y m => flipLine (w * y) (w * y + w - 1) m) n y m = some out ∧
      PixelsMoved w h 2 (fun x y' => (if y ≤ y' then w - 1 - x else x, y')) m out := by
  induction n generalizing y m with
  | zero =>
      refine ⟨m, rfl, (PixelsMoved.refl m).congr fun y' hy' x _ => ?_⟩
      rw [if_neg (by omega)]
  | succ n ih =>
      obtain ⟨m', hm', hmoved⟩ := @flipLine_row w h m y (by omega) hlen
      obtain ⟨out, hout, hmoved'⟩ := @ih m' (y + 1) (by omega) (hmoved.length.trans hlen)
      refine ⟨out, ?_, (hmoved.trans hmoved' fun y' hy' x hx => ?_).congr fun y' hy' x hx => ?_⟩
      · rw [rounds, hm']
        exact hout
      · refine ⟨?_, hy'⟩
        dsimp only
        split
        · omega
        · exact hx
      · dsimp only
        refine congrArg (fun k => (k, y')) ?_
        split_ifs <;> omega

theorem flipLr_spec (hlen : m.length = 2 * (w * h)) : ∃ out,
    pdpImageprocFlipLrProcess w h m = some out ∧
      PixelsMoved w h 2 (fun x y => (w - 1 - x, y)) m out := by
  obtain ⟨out, hout, hmoved⟩ := @flipLr_rows w h m h 0 (Nat.zero_add h) hlen
  exact ⟨out, hout, hmoved.congr fun y _ x _ => by rw [if_pos (Nat.zero_le y)]⟩

/-- The products are `int`s. -/
structure FlipDims (w h ps : Nat) : Prop where
  width : IsInt w
  height : IsInt h
  linesize : IsInt (w * ps)
  last : IsInt (w * ps * ((h : Int) - 1))

theorem flipTopBottom_spec (hdims : FlipDims w h ps) (hlen : m.length = ps * (w * h)) : ∃ out,
    pdpLlconvFlipTopBottom w h ps m = some out ∧
      PixelsMoved w h ps (fun x y => (x, h - 1 - y)) m out := by
  have hheight := hdims.height
  have hlinesize : intMul w ps = some _ := intMul_eq_some.mpr ⟨hdims.linesize, rfl⟩
  have hlast : intMul (w * ps) ((h : Int) - 1) = some _ := intMul_eq_some.mpr ⟨hdims.last, rfl⟩
  have hrows : IsInt ((h : Int) - 1) := ⟨by omega, by have := hheight.2; omega⟩
  unfold pdpLlconvFlipTopBottom
  rw [hlinesize, Option.bind_eq_bind, Option.bind_some, checkedS32_eq hrows, Option.bind_some,
    hlast, Option.bind_some]
  by_cases hh : h ≤ 1
  · refine ⟨m, if_pos (by omega), (PixelsMoved.refl m).congr fun y hy x _ => ?_⟩
    rw [show h - 1 - y = y by omega]
  rw [if_neg (by omega)]
  rcases Nat.eq_zero_or_pos w with rfl | hw
  · exact ⟨m, if_pos (by omega), rfl, fun _ _ x hx => absurd hx (Nat.not_lt_zero x)⟩
  rw [if_neg (by omega)]
  rcases Nat.eq_zero_or_pos ps with rfl | hps
  · refine ⟨m, ?_, rfl, fun _ _ _ _ b hb => absurd hb (Nat.not_lt_zero b)⟩
    rw [flipRows, if_neg (by simp)]
  · have hpos : 0 < w * ps := Nat.mul_pos hw hps
    have hcast : ((w * ps : Nat) : Int) = w * ps := Nat.cast_mul w ps
    have hlt := hdims.linesize.2
    have hfirst : ((w * ps * 0 : Nat) : Int) = 0 := rfl
    have hfinal : ((w * ps * (h - 1) : Nat) : Int) = w * ps * ((h : Int) - 1) := by
      rw [Nat.cast_mul, hcast, Nat.cast_sub (by omega)]
      rfl
    have hsize : w * ps * h = ps * (w * h) := by ring
    obtain ⟨out, hout, hmoved⟩ := @flipRows_spec m (w * ps) 0 (h - 1) hpos (by omega)
      (by rw [Nat.sub_add_cancel (by omega), hlen, hsize])
    rw [hfirst, hfinal, hcast] at hout
    refine ⟨out, hout, hmoved.length, fun y hy x hx b hb => ?_⟩
    have hbyte : ps * x + b < w * ps := Nat.mul_comm w ps ▸ add_mul_lt hx hb
    rw [hmoved.get _ (hlen ▸ pixelByte_lt hx hy hb), pixelByte_row, pieceMove_eq hbyte,
      pixelByte_row]
    unfold mirrored
    rw [if_pos (by omega), Nat.zero_add]

end Pixels

/-! ## What a flip is -/

/-- An image of `w` by `h` pixels of `ps` bytes.  Where there is a pixel, all products are
`int`s. -/
structure PixelData (w h ps : Nat) (data : DataArea) : Prop where
  size : data.size = ps * (w * h)
  empty : data.size = 0 → FlipDims w h ps

section Flips

variable {w h ps w' h' : Nat} {data image : DataArea} {m : List UInt8}

theorem PixelData.dims (hdata : PixelData w h ps data) : FlipDims w h ps := by
  rcases Nat.eq_zero_or_pos data.size with h0 | hpos
  · exact hdata.empty h0
  · have hsize := hdata.size
    have hlt : data.size + pdpHeaderSize < 2 ^ 31 := data.size_lt
    rw [hsize] at hpos hlt
    have hps := Nat.pos_of_mul_pos_right hpos
    have harea := Nat.pos_of_mul_pos_left hpos
    have hw := Nat.pos_of_mul_pos_right harea
    have hh := Nat.pos_of_mul_pos_left harea
    have hle : w * h ≤ ps * (w * h) := Nat.le_mul_of_pos_left _ hps
    have hwle : w ≤ w * h := Nat.le_mul_of_pos_right _ hh
    have hhle : h ≤ w * h := Nat.le_mul_of_pos_left _ hw
    have hline : w * ps ≤ ps * (w * h) := by
      rw [Nat.mul_comm w ps]
      exact Nat.mul_le_mul_left ps hwle
    have hlast : w * ps * (h - 1) ≤ ps * (w * h) := by
      rw [show ps * (w * h) = w * ps * h by ring]
      exact Nat.mul_le_mul_left _ (Nat.sub_le h 1)
    have hcast : (w * ps * ((h : Int) - 1)) = (w * ps * (h - 1) : Nat) := by
      rw [Nat.cast_mul, Nat.cast_mul, Nat.cast_sub hh]
      rfl
    refine ⟨⟨by omega, by omega⟩, ⟨by omega, by omega⟩, ?_, ?_⟩
    · rw [← Nat.cast_mul]
      exact ⟨by omega, by omega⟩
    · rw [hcast]
      exact ⟨by omega, by omega⟩

theorem flipTb_eq (hdims : FlipDims w h 2) :
    pdpImageprocFlipTbProcess w h m = pdpLlconvFlipTopBottom w h (2 : Nat) m := by
  unfold pdpImageprocFlipTbProcess
  rw [toInt32_of_isInt hdims.width, toInt32_of_isInt hdims.height]
  rfl

/-- Both flips put every pixel where it belongs, and done twice they do nothing.  They commute,
and together they are a rotation by 180 degrees. -/
theorem flip_spec (hdata : PixelData w h ps data) (himage : PixelData w' h' 2 image) :
    (∃ out, pdpLlconvFlipTopBottom w h ps data.bytes = some out ∧
      PixelsMoved w h ps (fun x y => (x, h - 1 - y)) data.bytes out ∧
      pdpLlconvFlipTopBottom w h ps out = some data.bytes ∧
      ∀ y, h = 2 * y + 1 → ∀ x < w, ∀ b < ps,
        out[pixelByte w ps x y b]? = data.bytes[pixelByte w ps x y b]?) ∧
    (∃ out, pdpImageprocFlipLrProcess w' h' image.bytes = some out ∧
      PixelsMoved w' h' 2 (fun x y => (w' - 1 - x, y)) image.bytes out ∧
      pdpImageprocFlipLrProcess w' h' out = some image.bytes ∧
      ∀ x, w' = 2 * x + 1 → ∀ y < h', ∀ b < 2,
        out[pixelByte w' 2 x y b]? = image.bytes[pixelByte w' 2 x y b]?) ∧
    ∃ lr tb out, pdpImageprocFlipLrProcess w' h' image.bytes = some lr ∧
      pdpImageprocFlipTbProcess w' h' image.bytes = some tb ∧
      pdpImageprocFlipTbProcess w' h' lr = some out ∧
      pdpImageprocFlipLrProcess w' h' tb = some out ∧
      PixelsMoved w' h' 2 (fun x y => (w' - 1 - x, h' - 1 - y)) image.bytes out := by
  have hinside : ∀ w h : Nat, StaysInside w h fun x y => (x, h - 1 - y) := fun w h y hy x hx =>
    ⟨hx, show h - 1 - y < h by omega⟩
  have hinside' : ∀ w h : Nat, StaysInside w h fun x y => (w - 1 - x, y) := fun w h y hy x hx =>
    ⟨show w - 1 - x < w by omega, hy⟩
  refine ⟨?_, ?_, ?_⟩
  · obtain ⟨out, hout, hmoved⟩ := flipTopBottom_spec hdata.dims hdata.size
    obtain ⟨back, hback, hmoved'⟩ :=
      flipTopBottom_spec hdata.dims (hmoved.length.trans hdata.size)
    have hsame : back = data.bytes := ((hmoved.trans hmoved' (hinside w h)).congr
      fun y hy x hx => by rw [show h - 1 - (h - 1 - y) = y by omega]).unique
        (PixelsMoved.refl data.bytes) hdata.size
    refine ⟨out, hout, hmoved, hsame ▸ hback, fun y hy x hx b hb => ?_⟩
    have hget := hmoved.get y (by omega) x hx b hb
    rwa [show h - 1 - y = y by omega] at hget
  · obtain ⟨out, hout, hmoved⟩ := flipLr_spec himage.size
    obtain ⟨back, hback, hmoved'⟩ := flipLr_spec (hmoved.length.trans himage.size)
    have hsame : back = image.bytes := ((hmoved.trans hmoved' (hinside' w' h')).congr
      fun y hy x hx => by rw [show w' - 1 - (w' - 1 - x) = x by omega]).unique
        (PixelsMoved.refl image.bytes) himage.size
    refine ⟨out, hout, hmoved, hsame ▸ hback, fun x hx y hy b hb => ?_⟩
    have hget := hmoved.get y hy x (by omega) b hb
    rwa [show w' - 1 - x = x by omega] at hget
  · obtain ⟨lr, hlr, hmoved⟩ := flipLr_spec himage.size
    obtain ⟨tb, htb, hmoved'⟩ := flipTopBottom_spec himage.dims himage.size
    obtain ⟨out, hout, hrot⟩ := flipTopBottom_spec himage.dims (hmoved.length.trans himage.size)
    obtain ⟨out', hout', hrot'⟩ := flipLr_spec (hmoved'.length.trans himage.size)
    have hboth := hmoved.trans hrot (hinside w' h')
    have hsame : out = out' := hboth.unique (hmoved'.trans hrot' (hinside' w' h')) himage.size
    refine ⟨lr, tb, out, hlr, ?_, ?_, hsame ▸ hout', hboth⟩
    · rw [flipTb_eq himage.dims]
      exact htb
    · rw [flipTb_eq himage.dims]
      exact hout

/-- Three by three pixels of two bytes. -/
def nine : DataArea where
  bytes := [0, 9, 1, 9, 2, 9, 3, 9, 4, 9, 5, 9, 6, 9, 7, 9, 8, 9]
  size_lt := by decide

theorem pixelData_nine : PixelData 3 3 2 nine := ⟨rfl, fun h => absurd h (by decide)⟩

theorem flip_spec_nine :
    (∃ out, pdpLlconvFlipTopBottom (3 : Nat) (3 : Nat) (2 : Nat) nine.bytes = some out ∧
      PixelsMoved 3 3 2 (fun x y => (x, 3 - 1 - y)) nine.bytes out ∧
      pdpLlconvFlipTopBottom (3 : Nat) (3 : Nat) (2 : Nat) out = some nine.bytes ∧
      ∀ y, 3 = 2 * y + 1 → ∀ x < 3, ∀ b < 2,
        out[pixelByte 3 2 x y b]? = nine.bytes[pixelByte 3 2 x y b]?) ∧
    (∃ out, pdpImageprocFlipLrProcess 3 3 nine.bytes = some out ∧
      PixelsMoved 3 3 2 (fun x y => (3 - 1 - x, y)) nine.bytes out ∧
      pdpImageprocFlipLrProcess 3 3 out = some nine.bytes ∧
      ∀ x, 3 = 2 * x + 1 → ∀ y < 3, ∀ b < 2,
        out[pixelByte 3 2 x y b]? = nine.bytes[pixelByte 3 2 x y b]?) ∧
    ∃ lr tb out, pdpImageprocFlipLrProcess 3 3 nine.bytes = some lr ∧
      pdpImageprocFlipTbProcess 3 3 nine.bytes = some tb ∧
      pdpImageprocFlipTbProcess 3 3 lr = some out ∧
      pdpImageprocFlipLrProcess 3 3 tb = some out ∧
      PixelsMoved 3 3 2 (fun x y => (3 - 1 - x, 3 - 1 - y)) nine.bytes out :=
  flip_spec pixelData_nine pixelData_nine

end Flips

end PureDataPacket
