/-
# `PureDataPacket.Image.Convolution` — the convolution of lines, in place

`pdp_imageproc_conv_process` replaces each pixel by a weighted sum of it and its two
neighbours in its row, or in its column.  It works in place and keeps in three variables
the old values that are still needed.  The border value stands for the neighbours that the
first and the last pixel of a line do not have.

The products and sums are `s32`s.  They are taken by a function of its own, so that one that
wraps and one that finds an overflow can be put in its place.  A pixel that is not in
the image cannot be read nor written.
-/
import PureDataPacket.Image.Agreement
import PureDataPacket.Image.Biquad
import PureDataPacket.Lib.Raster
import PureDataPacket.Lib.Sweep

namespace PureDataPacket

namespace Portable

/-! ## The routines -/

/-- The state: `s32 d[6]`, the last two of which are read as `u32`s. -/
structure Conv where
  min1 : Int
  zero : Int
  plus1 : Int
  border : Int
  orientation : Nat
  nbpasses : Nat

def PDP_IMAGEPROC_CONV_HORIZONTAL : Nat := 0

def PDP_IMAGEPROC_CONV_VERTICAL : Nat := 1

/-- `pdp_imageproc_conv_setmin1`. -/
def pdpImageprocConvSetmin1 (x : Conv) (val : ℚ) : Conv := { x with min1 := float2fixed val }

/-- `pdp_imageproc_conv_setzero`. -/
def pdpImageprocConvSetzero (x : Conv) (val : ℚ) : Conv := { x with zero := float2fixed val }

/-- `pdp_imageproc_conv_setplus1`. -/
def pdpImageprocConvSetplus1 (x : Conv) (val : ℚ) : Conv := { x with plus1 := float2fixed val }

/-- `pdp_imageproc_conv_setbordercolor`. -/
def pdpImageprocConvSetbordercolor (x : Conv) (val : ℚ) : Conv :=
  { x with border := float2fixed val }

/-- `(s32)image[p]`, in an image of `n` pixels. -/
def readPixel (n : Nat) (image : Pixels) (p : Int) : Option Int :=
  if 0 ≤ p ∧ p < n then some (image p).toInt else none

/-- `image[p] = v`. -/
def writePixel (n : Nat) (image : Pixels) (p : Int) (v : S16) : Option Pixels :=
  if 0 ≤ p ∧ p < n then some (Function.update image p v) else none

/-- `a*d[0] + b*d[1] + c*d[2]`. -/
def convSum (d : Conv) (a b c : Int) : Int := a * d.min1 + b * d.zero + c * d.plus1

/-- `(s16)CLAMP16(r>>15)`. -/
def convStored (r : Int) : S16 := toS16 (CLAMP16 (r / 2 ^ 15))

/-- The variables of `pdp_imageproc_conv_scanline`. -/
structure ConvState where
  image : Pixels
  data : Int
  a : Int
  b : Int
  c : Int

/-- One round of the loop of `pdp_imageproc_conv_scanline`. -/
def convRound (sum : Int → Int → Int → Option Int) (n : Nat) (stride : Int) (s : ConvState) :
    Option ConvState := do
  let r ← sum s.a s.b s.c
  let a ← readPixel n s.image s.data
  let b ← readPixel n s.image (s.data + stride)
  let stride2 ← intMul stride 2
  let c ← readPixel n s.image (s.data + stride2)
  let image ← writePixel n s.image s.data (convStored r)
  return ⟨image, s.data + stride, a, b, c⟩

/-- What `pdp_imageproc_conv_scanline` does after the loop, with the last two pixels. -/
def convTail (sum : Int → Int → Int → Option Int) (border : Int) (n : Nat) (stride : Int)
    (s : ConvState) : Option Pixels := do
  let r ← sum s.a s.b s.c
  let a ← readPixel n s.image s.data
  let b ← readPixel n s.image (s.data + stride)
  let image ← writePixel n s.image s.data (convStored r)
  let r ← sum a b border
  writePixel n image (s.data + stride) (convStored r)

/-- `pdp_imageproc_conv_scanline`. -/
def pdpImageprocConvScanline (sum : Int → Int → Int → Option Int) (border : Int) (n : Nat)
    (image : Pixels) (data : Int) (count : Nat) (stride : Int) : Option Pixels := do
  let b ← readPixel n image data
  let c ← readPixel n image (data + stride)
  let s ← rounds (fun _ => convRound sum n stride) (ofInt32 (count - 2)) 0
    ⟨image, data, border, b, c⟩
  convTail sum border n stride s

def convPasses (sum : Int → Int → Int → Option Int) (d : Conv) (n count : Nat) (stride : Int)
    (image : Pixels) (data : Int) : Option Pixels :=
  rounds (fun _ image => pdpImageprocConvScanline sum d.border n image data count stride)
    d.nbpasses 0 image

/-- `pdp_imageproc_conv_process`, with the sums taken by `sum`. -/
def convProcess (sum : Int → Int → Int → Option Int) (d : Conv) (width height : Nat)
    (image : Pixels) : Option Pixels := do
  let n := width * height
  let image ← if d.orientation = PDP_IMAGEPROC_CONV_HORIZONTAL then
    (counter 0 (u32 (width * height)) width).foldlM (convPasses sum d n width 1) image
  else some image
  if d.orientation = PDP_IMAGEPROC_CONV_VERTICAL then
    (counter 0 width 1).foldlM (convPasses sum d n height (toInt32 width)) image
  else some image

/-- `pdp_imageproc_conv_process`: the sums are taken modulo `2 ^ 32`. -/
def pdpImageprocConvProcess (d : Conv) (width height : Nat) (image : Pixels) : Option Pixels :=
  convProcess (fun a b c => some (toInt32 (convSum d a b c))) d width height image

/-! ## Rows and columns -/

def rows (w h : Nat) : Raster where
  lines := h
  count := w
  place := fun i k => i * w + k
  coords := fun p => if 0 ≤ p ∧ p < (w * h : Nat) then some (p.toNat / w, p.toNat % w) else none
  coords_eq := by
    intro p i k
    constructor
    · split
      · next hp =>
          rintro ⟨⟩
          have hw : 0 < w := Nat.pos_of_ne_zero fun h0 => by
            rw [h0, Nat.zero_mul] at hp
            omega
          have hdiv := Nat.div_add_mod p.toNat w
          refine ⟨Nat.div_lt_of_lt_mul (by omega), Nat.mod_lt _ hw, ?_⟩
          rw [Nat.mul_comm] at hdiv
          zify at hdiv ⊢
          omega
      · rintro ⟨⟩
    · rintro ⟨hi, hk, rfl⟩
      have hlt : i * w + k < w * h := by
        have : (i + 1) * w ≤ h * w := Nat.mul_le_mul_right w hi
        rw [Nat.add_mul, Nat.one_mul] at this
        rw [Nat.mul_comm w h]
        omega
      have hnat : ((i : Int) * w + k).toNat = i * w + k := by
        rw [← Int.natCast_mul, ← Int.natCast_add, Int.toNat_natCast]
      rw [if_pos ⟨by positivity, by exact_mod_cast hlt⟩, hnat, Nat.mul_comm i w,
        Nat.mul_add_div (by omega), Nat.div_eq_of_lt hk, Nat.mul_add_mod, Nat.mod_eq_of_lt hk,
        Nat.add_zero]

def columns (w h : Nat) : Raster where
  lines := w
  count := h
  place := fun i k => i + k * w
  coords := fun p => ((rows w h).coords p).map Prod.swap
  coords_eq := by
    intro p i k
    rw [Option.map_eq_some_iff]
    constructor
    · rintro ⟨⟨k', i'⟩, hc, ⟨⟩⟩
      obtain ⟨hk, hi, hp⟩ := (rows w h).coords_eq.mp hc
      exact ⟨hi, hk, (Int.add_comm _ _).trans hp⟩
    · rintro ⟨hi, hk, hp⟩
      exact ⟨(k, i), (rows w h).coords_eq.mpr ⟨hk, hi, (Int.add_comm _ _).trans hp⟩, rfl⟩

/-! ## The map -/

/-- The value at a place, or the border value. -/
def sample (border : Int) (a : Option S16) : Int := (a.map BitVec.toInt).getD border

/-- `CLAMP16((previous*c0 + pixel*c1 + next*c2) >> 15)`, with the sum taken by `total`. -/
def convMap (total : Int → Int → Int → Int) (border : Int) (a : Option S16) (b : S16)
    (c : Option S16) : S16 :=
  convStored (total (sample border a) b.toInt (sample border c))

/-- The sums that are taken of pixels and border values. -/
def Sums (sum : Int → Int → Int → Option Int) (total : Int → Int → Int → Int) (border : Int) :
    Prop :=
  ∀ (a : Option S16) (b : S16) (c : Option S16),
    sum (sample border a) b.toInt (sample border c) =
      some (total (sample border a) b.toInt (sample border c))

/-! ## One line -/

section Scanline

variable {r : Raster} {n i j : Nat} {stride : Int} {m : Pixels} {border : Int}
  {sum : Int → Int → Int → Option Int} {total : Int → Int → Int → Int}

/-- The lines of a raster as the routine goes along them. -/
structure Walked (r : Raster) (n : Nat) (stride : Int) : Prop where
  two_le : 2 ≤ r.count
  count_lt : r.count < 2 ^ 32
  doubled : IsInt (stride * 2)
  inside : ∀ i < r.lines, ∀ k < r.count, 0 ≤ r.place i k ∧ r.place i k < n
  next : ∀ i k, r.place i (k + 1) = r.place i k + stride

/-- Line `i` when the first `j` pixels are done. -/
def partly (r : Raster) (total : Int → Int → Int → Int) (border : Int) (i j : Nat) (m : Pixels) :
    Pixels :=
  r.passOn (convMap total border) (fun l k => l == i && decide (k < j)) m

def lineState (r : Raster) (total : Int → Int → Int → Int) (border : Int) (i j : Nat)
    (m : Pixels) : ConvState where
  image := partly r total border i j m
  data := r.place i j
  a := sample border (r.before m i j)
  b := (m (r.place i j)).toInt
  c := sample border (r.behind m i j)

theorem readPixel_partly (hr : Walked r n stride) (hi : i < r.lines) {k : Nat} (hk : k < r.count)
    (hjk : j ≤ k) : readPixel n (partly r total border i j m) (r.place i k) =
      some (m (r.place i k)).toInt := by
  have htodo : (i == i && decide (k < j)) = false := by
    rw [decide_eq_false (by omega), Bool.and_false]
  unfold readPixel partly
  rw [if_pos (hr.inside i hi k hk), Raster.passOn_place _ hi hk, htodo]
  rfl

theorem writePixel_partly (hr : Walked r n stride) (hi : i < r.lines) (hj : j < r.count) :
    writePixel n (partly r total border i j m) (r.place i j)
      (r.value (convMap total border) m i j) = some (partly r total border i (j + 1) m) := by
  unfold writePixel partly
  rw [if_pos (hr.inside i hi j hj), Raster.update_passOn _ hi hj]
  congr 1
  refine Raster.passOn_congr fun i' _ k' _ => ?_
  rw [Bool.eq_iff_iff]
  simp
  omega

/-- The value behind a place that is not the last one. -/
theorem sample_behind (hj : j + 1 < r.count) :
    sample border (r.behind m i j) = (m (r.place i (j + 1))).toInt := by
  unfold Raster.behind
  rw [if_pos hj]
  rfl

theorem sample_before : sample border (r.before m i (j + 1)) = (m (r.place i j)).toInt := rfl

theorem convStored_value : convStored (total (sample border (r.before m i j))
    (m (r.place i j)).toInt (sample border (r.behind m i j))) =
      r.value (convMap total border) m i j := rfl

theorem convRound_lineState (hr : Walked r n stride) (hi : i < r.lines) (hj : j + 2 < r.count)
    (hsum : Sums sum total border) :
    convRound sum n stride (lineState r total border i j m) =
      some (lineState r total border i (j + 1) m) := by
  have hplace2 : r.place i j + stride * 2 = r.place i (j + 2) := by
    rw [hr.next i (j + 1), hr.next i j]
    omega
  have hdouble : intMul stride 2 = some (stride * 2) := intMul_eq_some.mpr ⟨hr.doubled, rfl⟩
  have hwrite := @writePixel_partly r n i j stride m border total hr hi (by omega)
  unfold convRound lineState
  simp only [← hr.next i j, Option.bind_eq_bind]
  rw [hsum, Option.bind_some, readPixel_partly hr hi (by omega) le_rfl, Option.bind_some,
    readPixel_partly hr hi (by omega) (by omega), Option.bind_some, hdouble, Option.bind_some,
    hplace2, readPixel_partly hr hi hj (by omega), Option.bind_some, convStored_value, hwrite,
    Option.bind_some, sample_before, sample_behind (by omega)]
  rfl

theorem convTail_lineState (hr : Walked r n stride) (hi : i < r.lines) (hj : j + 2 = r.count)
    (hsum : Sums sum total border) :
    convTail sum border n stride (lineState r total border i j m) =
      some (r.passLine (convMap total border) i m) := by
  have hwrite := @writePixel_partly r n i j stride m border total hr hi (by omega)
  have hlast := @writePixel_partly r n i (j + 1) stride m border total hr hi (by omega)
  have hnone : r.behind m i (j + 1) = none := if_neg (by omega)
  have hborder : sample border (r.behind m i (j + 1)) = border := by
    rw [hnone]
    rfl
  have hsumLast := hsum (r.before m i (j + 1)) (m (r.place i (j + 1))) (r.behind m i (j + 1))
  rw [sample_before, hborder] at hsumLast
  have hvalue : convStored (total (m (r.place i j)).toInt (m (r.place i (j + 1))).toInt border) =
      r.value (convMap total border) m i (j + 1) := by
    rw [← convStored_value, sample_before, hborder]
  have hall : partly r total border i (j + 1 + 1) m = r.passLine (convMap total border) i m := by
    refine Raster.passOn_congr fun i' _ k' hk' => ?_
    rw [decide_eq_true (by omega), Bool.and_true]
  unfold convTail lineState
  simp only [← hr.next i j, Option.bind_eq_bind]
  rw [hsum, Option.bind_some, readPixel_partly hr hi (by omega) le_rfl, Option.bind_some,
    readPixel_partly hr hi (by omega) (by omega), Option.bind_some, convStored_value, hwrite,
    Option.bind_some, hsumLast, Option.bind_some, hvalue, hlast, hall]

theorem convScanline_eq (hr : Walked r n stride) (hi : i < r.lines)
    (hsum : Sums sum total border) (m : Pixels) :
    pdpImageprocConvScanline sum border n m (r.place i 0) r.count stride =
      some (r.passLine (convMap total border) i m) := by
  have htwo := hr.two_le
  have hrounds : ofInt32 ((r.count : Int) - 2) = r.count - 2 := by
    have hcount := hr.count_lt
    rw [show (r.count : Int) - 2 = (r.count - 2 : Nat) by omega]
    exact ofInt32_of_nat_lt (by omega)
  have hstart : (⟨m, r.place i 0, border, (m (r.place i 0)).toInt,
      (m (r.place i 1)).toInt⟩ : ConvState) = lineState r total border i 0 m := by
    have hnone : partly r total border i 0 m = m := by
      refine (Raster.passOn_congr fun i' _ k' _ => ?_).trans Raster.passOn_false
      rw [decide_eq_false (by omega), Bool.and_false]
    unfold lineState
    rw [hnone, sample_behind (by omega)]
    rfl
  have hread : ∀ k < r.count, readPixel n m (r.place i k) = some (m (r.place i k)).toInt :=
    fun k hk => if_pos (hr.inside i hi k hk)
  have hloop := @rounds_eq _ (fun _ => convRound sum n stride)
    (fun j => lineState r total border i j m) (r.count - 2) 0
    fun j _ hj => convRound_lineState hr hi (by omega) hsum
  unfold pdpImageprocConvScanline
  rw [hread 0 (by omega), Option.bind_eq_bind, Option.bind_some, ← hr.next i 0,
    hread 1 (by omega), Option.bind_eq_bind, Option.bind_some, hrounds, hstart, hloop,
    Option.bind_some, Nat.zero_add]
  exact convTail_lineState hr hi (by omega) hsum

theorem convPasses_eq {d : Conv} (hr : Walked r n stride) (hi : i < r.lines)
    (hsum : Sums sum total d.border) (m : Pixels) :
    convPasses sum d n r.count stride m (r.place i 0) =
      some ((r.passLine (convMap total d.border) i)^[d.nbpasses] m) := by
  have hloop := @rounds_eq _
    (fun _ m => pdpImageprocConvScanline sum d.border n m (r.place i 0) r.count stride)
    (fun j => (r.passLine (convMap total d.border) i)^[j] m) d.nbpasses 0
    fun j _ _ => by
      rw [convScanline_eq hr hi hsum, Function.iterate_succ_apply']
  rw [Nat.zero_add] at hloop
  exact hloop

theorem convLines_eq {d : Conv} (hr : Walked r n stride)
    (hsum : Sums sum total d.border) (m : Pixels) :
    ((List.range r.lines).map fun i => r.place i 0).foldlM (convPasses sum d n r.count stride) m =
      some ((r.pass (convMap total d.border))^[d.nbpasses] m) := by
  have hlines : ∀ l : List Nat, (∀ i ∈ l, i < r.lines) → ∀ m,
      (l.map fun i => r.place i 0).foldlM (convPasses sum d n r.count stride) m =
        some (l.foldl (fun m i => (r.passLine (convMap total d.border) i)^[d.nbpasses] m) m) := by
    intro l
    induction l with
    | nil => exact fun _ m => rfl
    | cons i l ih =>
        intro hl m
        rw [List.map_cons, List.foldlM_cons, convPasses_eq hr (hl i (by simp)) hsum,
          Option.bind_eq_bind, Option.bind_some, ih fun j hj => hl j (by simp [hj])]
        rfl
  rw [hlines _ (fun i hi => List.mem_range.mp hi), Raster.foldl_passLine_iterate]

end Scanline

/-! ## The image -/

section Process

variable {w h : Nat}

theorem walked_rows (hw : 2 ≤ w) (hh : 2 ≤ h) (hfit : 2 * (w * h) < 2 ^ 32) :
    Walked (rows w h) (w * h) 1 where
  two_le := hw
  count_lt := by
    have := Nat.mul_le_mul_left w hh
    show w < 2 ^ 32
    omega
  doubled := by decide
  inside := fun i hi k hk => by
    have hcoords := Raster.coords_place hi hk
    simp only [rows] at hcoords ⊢
    exact (Option.ite_none_right_eq_some.mp hcoords).1
  next := fun i k => by
    simp only [rows]
    push_cast
    omega

theorem walked_columns (hw : 2 ≤ w) (hh : 2 ≤ h) (hfit : 2 * (w * h) < 2 ^ 32) :
    Walked (columns w h) (w * h) (toInt32 w) where
  two_le := hh
  count_lt := by
    have := Nat.mul_le_mul_right h hw
    show h < 2 ^ 32
    omega
  doubled := by
    have := Nat.mul_le_mul_left w hh
    rw [toInt32_of_nat_lt (by omega)]
    constructor <;> omega
  inside := fun i hi k hk => by
    have hplace : (columns w h).place i k = (rows w h).place k i := Int.add_comm _ _
    rw [hplace]
    exact (walked_rows hw hh hfit).inside k hk i hi
  next := fun i k => by
    have := Nat.mul_le_mul_left w hh
    rw [toInt32_of_nat_lt (by omega)]
    simp only [columns]
    push_cast
    ring

theorem convProcess_eq {d : Conv} {sum : Int → Int → Int → Option Int}
    {total : Int → Int → Int → Int} (hsum : Sums sum total d.border) (hw : 2 ≤ w) (hh : 2 ≤ h)
    (hfit : 2 * (w * h) < 2 ^ 32) (m : Pixels) :
    (d.orientation = PDP_IMAGEPROC_CONV_HORIZONTAL → convProcess sum d w h m =
      some (((rows w h).pass (convMap total d.border))^[d.nbpasses] m)) ∧
    (d.orientation = PDP_IMAGEPROC_CONV_VERTICAL → convProcess sum d w h m =
      some (((columns w h).pass (convMap total d.border))^[d.nbpasses] m)) := by
  constructor
  · intro horientation
    have hstarts : counter 0 (u32 (w * h)) w =
        (List.range (rows w h).lines).map fun i => (rows w h).place i 0 := by
      rw [u32_eq_self (by omega), Nat.cast_mul, ← Int.zero_add ((w : Int) * h),
        counter_of_mul 0 (by omega)]
      refine List.map_congr_left fun i _ => ?_
      simp only [rows]
      rw [Int.zero_add, Int.mul_comm, Nat.cast_zero, Int.add_zero]
    have hlines := convLines_eq (walked_rows hw hh hfit) hsum m
    rw [← hstarts] at hlines
    unfold convProcess
    rw [if_pos horientation]
    refine Option.bind_eq_some_iff.mpr ⟨_, hlines, ?_⟩
    exact if_neg (by rw [horientation]; decide)
  · intro horientation
    have hstarts : counter 0 w 1 =
        (List.range (columns w h).lines).map fun i => (columns w h).place i 0 := by
      rw [← Int.zero_add (w : Int), ← Int.one_mul (w : Int), counter_of_mul 0 (by decide)]
      refine List.map_congr_left fun i _ => ?_
      simp only [columns]
      omega
    have hlines := convLines_eq (walked_columns hw hh hfit) hsum m
    rw [← hstarts] at hlines
    unfold convProcess
    rw [if_neg (by rw [horientation]; decide)]
    refine Option.bind_eq_some_iff.mpr ⟨_, rfl, ?_⟩
    exact (if_pos horientation).trans hlines

/-- In place, the passes are those of the map from one image to another.  Every access is inside
the image, whose bytes are counted by an `unsigned int`. -/
theorem pdpImageprocConvProcess_eq (d : Conv) (hw : 2 ≤ w) (hh : 2 ≤ h)
    (hfit : 2 * (w * h) < 2 ^ 32) (m : Pixels) :
    (d.orientation = PDP_IMAGEPROC_CONV_HORIZONTAL →
      pdpImageprocConvProcess d w h m = some (((rows w h).pass
        (convMap (fun a b c => toInt32 (convSum d a b c)) d.border))^[d.nbpasses] m)) ∧
    (d.orientation = PDP_IMAGEPROC_CONV_VERTICAL →
      pdpImageprocConvProcess d w h m = some (((columns w h).pass
        (convMap (fun a b c => toInt32 (convSum d a b c)) d.border))^[d.nbpasses] m)) :=
  convProcess_eq (fun _ _ _ => rfl) hw hh hfit m

/-- Two passes over two rows. -/
theorem pdpImageprocConvProcess_eq_small :
    pdpImageprocConvProcess ⟨0x2000, 0x4000, 0x2000, 0x7fff, 0, 2⟩ 2 2 (fun _ => 0x1000#16) =
      some (((rows 2 2).pass (convMap (fun a b c => toInt32 (convSum
        ⟨0x2000, 0x4000, 0x2000, 0x7fff, 0, 2⟩ a b c)) 0x7fff))^[2] fun _ => 0x1000#16) :=
  (pdpImageprocConvProcess_eq ⟨0x2000, 0x4000, 0x2000, 0x7fff, 0, 2⟩ (by decide) (by decide)
    (by decide) _).1 rfl

end Process

end Portable

end PureDataPacket
