/-
# `PureDataPacket.Image.Biquad` — filters along four lines at a time

The routines of the `gccMmx` version filter four lines of an image with one recurrence
(`biquadDf2`), a block of four by four pixels after the other.  The four lines are in the
four lanes of a register: those of a vertical strip are, as they are in memory, those of a
horizontal strip after the block has been transposed.

Memory is a function of the index of a pixel, so that nothing is assumed about what is
around an image; the products of `int`s that give the places of rows and blocks are checked.

| | |
| :-- | :-- |
| `lane_biquadDf2` | every lane of `biquadDf2` is a `df2` |
| `BlockFilters` | a filter of blocks goes along four lines |
| `filters_strip` | a loop goes along the four lines of a strip |
| `Plane` | the images of the strips |
-/
import Mathlib.Data.Fintype.Basic
import Mathlib.Tactic.FinCases
import Mathlib.Tactic.Ring
import PureDataPacket.Image.Imageproc
import PureDataPacket.Lib.Lines

namespace PureDataPacket

abbrev Pixels := Int → S16

/-! ## The recurrence -/

/-- `paddw`, `_mm_add_pi16`. -/
def paddw : M64 → M64 → M64 := M64.map₂ fun a b => a + b

/-- The coefficients, for four lines or for one. -/
structure BiquadCoef (α : Type) where
  ma1 : α
  ma2 : α
  b0 : α
  b1 : α
  b2 : α

/-- The state, for four lines or for one. -/
structure BiquadState (α : Type) where
  u1 : α
  u2 : α

namespace GccMmx

/-- `biquad_df2`: the output, and the new state. -/
def biquadDf2 (c : BiquadCoef M64) (u : BiquadState M64) (x : M64) : M64 × BiquadState M64 :=
  let xb0 := pmulhw c.b0 x
  let xb1 := pmulhw c.b1 x
  let b0xPlusU1 := paddw xb0 u.u1
  let b1xPlusU2 := paddw xb1 u.u2
  let yDiv2 := paddsw b0xPlusU1 b0xPlusU1
  let y := paddsw yDiv2 yDiv2
  let ma1y := pmulhw c.ma1 y
  let ma2y := pmulhw c.ma2 y
  let b2x := pmulhw c.b2 x
  (y, ⟨paddw b1xPlusU2 ma1y, paddw b2x ma2y⟩)

/-- The recurrence of `biquad_df2` for one pixel. -/
def df2 (c : BiquadCoef S16) (u : BiquadState S16) (x : S16) : S16 × BiquadState S16 :=
  let sum := mulhiPixel c.b0 x + u.u1
  let half := addsPixel sum sum
  let y := addsPixel half half
  (y, ⟨mulhiPixel c.b1 x + u.u2 + mulhiPixel c.ma1 y, mulhiPixel c.b2 x + mulhiPixel c.ma2 y⟩)

/-! ## Blocks -/

/-- The four registers of a block. -/
structure Regs where
  v0 : M64
  v1 : M64
  v2 : M64
  v3 : M64

/-- `_mm_unpacklo_pi16`. -/
def unpacklo (a b : M64) : M64 := ⟨a.s0, b.s0, a.s1, b.s1⟩

/-- `_mm_unpackhi_pi16`. -/
def unpackhi (a b : M64) : M64 := ⟨a.s2, b.s2, a.s3, b.s3⟩

def transpose (v : Regs) : Regs :=
  let a0c0a1c1 := unpacklo v.v0 v.v2
  let a2c2a3c3 := unpackhi v.v0 v.v2
  let b0d0b1d1 := unpacklo v.v1 v.v3
  let b2d2b3d3 := unpackhi v.v1 v.v3
  ⟨unpacklo a0c0a1c1 b0d0b1d1, unpackhi a0c0a1c1 b0d0b1d1, unpacklo a2c2a3c3 b2d2b3d3,
    unpackhi a2c2a3c3 b2d2b3d3⟩

/-- The registers in the opposite order. -/
def Regs.flip (v : Regs) : Regs := ⟨v.v3, v.v2, v.v1, v.v0⟩

/-- The registers in the order in which a pass takes them. -/
def Regs.turn (backwards : Bool) (v : Regs) : Regs := if backwards then v.flip else v

def antitranspose (v : Regs) : Regs := (transpose v.flip).flip

def biquad4x4 (c : BiquadCoef M64) (u : BiquadState M64) (v : Regs) : Regs × BiquadState M64 :=
  let (v0, u) := biquadDf2 c u v.v0
  let (v1, u) := biquadDf2 c u v.v1
  let (v2, u) := biquadDf2 c u v.v2
  let (v3, u) := biquadDf2 c u v.v3
  (⟨v0, v1, v2, v3⟩, u)

def biquad4x4T (c : BiquadCoef M64) (u : BiquadState M64) (v : Regs) : Regs × BiquadState M64 :=
  let (v, u) := biquad4x4 c u (transpose v)
  (transpose v, u)

def biquad4x4A (c : BiquadCoef M64) (u : BiquadState M64) (v : Regs) : Regs × BiquadState M64 :=
  let (v, u) := biquad4x4 c u (antitranspose v)
  (antitranspose v, u)

/-! ## Strips -/

/-- `im[k]`, for an `im` that points to pixel `p`. -/
def loadVec (m : Pixels) (p k : Int) : M64 :=
  ⟨m (p + 4 * k), m (p + 4 * k + 1), m (p + 4 * k + 2), m (p + 4 * k + 3)⟩

/-- `im[k] = v`. -/
def storeVec (m : Pixels) (p k : Int) (v : M64) : Pixels := fun a =>
  if a = p + 4 * k then v.s0
  else if a = p + 4 * k + 1 then v.s1
  else if a = p + 4 * k + 2 then v.s2
  else if a = p + 4 * k + 3 then v.s3
  else m a

/-- The four rows at `im`, in the order of their addresses. -/
def loadRows (m : Pixels) (p stride : Int) : Regs :=
  ⟨loadVec m p 0, loadVec m p stride, loadVec m p (2 * stride), loadVec m p (3 * stride)⟩

def storeRows (m : Pixels) (p stride : Int) (v : Regs) : Pixels :=
  storeVec (storeVec (storeVec (storeVec m p 0 v.v0) p stride v.v1) p (2 * stride) v.v2) p
    (3 * stride) v.v3

/-- One round of a loop: four rows are loaded, filtered and stored.  The passes that go
backwards load them from `v3` to `v0`. -/
def stripBlock (filter : BiquadState M64 → Regs → Regs × BiquadState M64) (backwards : Bool)
    (p stride : Int) (s : Pixels × BiquadState M64) : Pixels × BiquadState M64 :=
  let (v, u) := filter s.2 ((loadRows s.1 p stride).turn backwards)
  (storeRows s.1 p stride (v.turn backwards), u)

/-- The loop: `n` blocks from pixel `p` on, `step` vectors from one to the next. -/
def strip (filter : BiquadState M64 → Regs → Regs × BiquadState M64) (backwards : Bool)
    (p stride step : Int) (n : Nat) (s : Pixels × BiquadState M64) : Pixels × BiquadState M64 :=
  (List.range n).foldl
    (fun s (b : Nat) => stripBlock filter backwards (p + 4 * (step * b)) stride s) s

/-- `pixel_biquad_vertb_s16`: `2 * stride` and `3 * stride` are `int`s if `4 * stride` is. -/
def pixelBiquadVertbS16 (image nb4x4Blocks stride : Int) (c : BiquadCoef M64)
    (s : Pixels × BiquadState M64) : Option (Pixels × BiquadState M64) :=
  let stride := stride.tdiv 4
  (intMul 4 stride).map fun stride4 =>
    strip (biquad4x4 c) false image stride stride4 nb4x4Blocks.toNat s

/-- `pixel_biquad_verbt_s16`. -/
def pixelBiquadVerbtS16 (image nb4x4Blocks stride : Int) (c : BiquadCoef M64)
    (s : Pixels × BiquadState M64) : Option (Pixels × BiquadState M64) :=
  let stride := stride.tdiv 4
  (intMul 4 stride).bind fun stride4 =>
  (intMul (nb4x4Blocks - 1) stride4).map fun last =>
    strip (biquad4x4 c) true (image + 4 * last) stride (-stride4) nb4x4Blocks.toNat s

/-- `pixel_biquad_horlr_s16`. -/
def pixelBiquadHorlrS16 (image nb4x4Blocks stride : Int) (c : BiquadCoef M64)
    (s : Pixels × BiquadState M64) : Option (Pixels × BiquadState M64) :=
  let stride := stride.tdiv 4
  (intMul 4 stride).map fun _ =>
    strip (biquad4x4T c) false image stride 1 nb4x4Blocks.toNat s

/-- `pixel_biquad_horrl_s16`. -/
def pixelBiquadHorrlS16 (image nb4x4Blocks stride : Int) (c : BiquadCoef M64)
    (s : Pixels × BiquadState M64) : Option (Pixels × BiquadState M64) :=
  let stride := stride.tdiv 4
  (intMul 4 stride).map fun _ =>
    strip (biquad4x4A c) true (image + 4 * (nb4x4Blocks - 1)) stride (-1) nb4x4Blocks.toNat s

end GccMmx

/-! ## Lanes -/

namespace M64

/-- Lane `k`; lane 0 is the first one in memory. -/
def lane (m : M64) : Fin 4 → S16
  | 0 => m.s0
  | 1 => m.s1
  | 2 => m.s2
  | 3 => m.s3

@[simp] theorem lane_map₂ (f : S16 → S16 → S16) (m n : M64) (k : Fin 4) :
    (map₂ f m n).lane k = f (m.lane k) (n.lane k) := by
  match k with
  | 0 => rfl
  | 1 => rfl
  | 2 => rfl
  | 3 => rfl

end M64

def BiquadCoef.lane (c : BiquadCoef M64) (k : Fin 4) : BiquadCoef S16 :=
  ⟨c.ma1.lane k, c.ma2.lane k, c.b0.lane k, c.b1.lane k, c.b2.lane k⟩

def BiquadState.lane (u : BiquadState M64) (k : Fin 4) : BiquadState S16 :=
  ⟨u.u1.lane k, u.u2.lane k⟩

namespace GccMmx

theorem lane_biquadDf2 (c : BiquadCoef M64) (u : BiquadState M64) (x : M64) (k : Fin 4) :
    (biquadDf2 c u x).1.lane k = (df2 (c.lane k) (u.lane k) (x.lane k)).1 ∧
      (biquadDf2 c u x).2.lane k = (df2 (c.lane k) (u.lane k) (x.lane k)).2 := by
  constructor <;>
    simp [biquadDf2, df2, paddsw, pmulhw, paddw, BiquadCoef.lane, BiquadState.lane]

/-- Register `t`. -/
def Regs.get (v : Regs) : Fin 4 → M64
  | 0 => v.v0
  | 1 => v.v1
  | 2 => v.v2
  | 3 => v.v3

theorem lane_transpose (v : Regs) (t k : Fin 4) :
    ((transpose v).get t).lane k = (v.get k).lane t := by
  fin_cases t <;> fin_cases k <;> rfl

theorem get_flip (v : Regs) (t : Fin 4) : v.flip.get t = v.get t.rev := by
  fin_cases t <;> rfl

theorem lane_antitranspose (v : Regs) (t k : Fin 4) :
    ((antitranspose v).get t).lane k = (v.get k.rev).lane t.rev := by
  unfold antitranspose
  rw [get_flip, lane_transpose, get_flip]

/-- The pixel in a row and a column of the registers. -/
def Regs.pixel (v : Regs) (place : Fin 4 × Fin 4) : S16 := (v.get place.1).lane place.2

/-- A filter of blocks goes along four lines with the recurrences; `place k t` is where pixel `t`
of line `k` is. -/
structure BlockFilters (filter : BiquadState M64 → Regs → Regs × BiquadState M64)
    (c : BiquadCoef M64) (place : Fin 4 → Fin 4 → Fin 4 × Fin 4) : Prop where
  values : ∀ u v k, (List.finRange 4).map (fun t => (filter u v).1.pixel (place k t)) =
    (scan (df2 (c.lane k)) (u.lane k) ((List.finRange 4).map fun t => v.pixel (place k t))).1
  states : ∀ u v k, (filter u v).2.lane k =
    (scan (df2 (c.lane k)) (u.lane k) ((List.finRange 4).map fun t => v.pixel (place k t))).2

section Blocks

variable {c : BiquadCoef M64}

/-- Lane `k` goes through the registers in order. -/
theorem blockFilters_biquad4x4 : BlockFilters (biquad4x4 c) c fun k t => (t, k) := by
  have hrange : List.finRange 4 = [0, 1, 2, 3] := by decide
  constructor <;>
    intro u v k <;>
    simp only [hrange, List.map_cons, List.map_nil, scan, biquad4x4, Regs.pixel, Regs.get,
      lane_biquadDf2]

/-- Lane `k` is register `k` before and after. -/
theorem blockFilters_biquad4x4T : BlockFilters (biquad4x4T c) c fun k t => (k, t) := by
  have hpixel : ∀ (v : Regs) (k t : Fin 4), (transpose v).pixel (k, t) = v.pixel (t, k) :=
    fun v k t => lane_transpose v k t
  constructor
  · intro u v k
    have h := blockFilters_biquad4x4.values (c := c) u (transpose v) k
    simp only [hpixel] at h
    simp only [biquad4x4T, hpixel]
    exact h
  · intro u v k
    have h := blockFilters_biquad4x4.states (c := c) u (transpose v) k
    simp only [hpixel] at h
    exact h

/-- Lane `k` is register `3 - k`, from its last pixel on. -/
theorem blockFilters_biquad4x4A :
    BlockFilters (biquad4x4A c) c fun k t => (k.rev, t.rev) := by
  have hpixel : ∀ (v : Regs) (k t : Fin 4),
      (antitranspose v).pixel (k, t) = v.pixel (t.rev, k.rev) :=
    fun v k t => lane_antitranspose v k t
  constructor
  · intro u v k
    have h := blockFilters_biquad4x4.values (c := c) u (antitranspose v) k
    simp only [hpixel] at h
    simp only [biquad4x4A, hpixel, Fin.rev_rev]
    exact h
  · intro u v k
    have h := blockFilters_biquad4x4.states (c := c) u (antitranspose v) k
    simp only [hpixel] at h
    exact h

end Blocks

/-! ## Blocks in memory -/

section Memory

variable {m : Pixels} {p stride : Int} {v : Regs}

theorem pixel_loadRows (m : Pixels) (p stride : Int) (r l : Fin 4) :
    (loadRows m p stride).pixel (r, l) = m (p + 4 * (stride * (r : Nat)) + (l : Nat)) := by
  fin_cases r <;> fin_cases l <;>
    simp [loadRows, Regs.pixel, Regs.get, M64.lane, loadVec, Int.mul_comm]

theorem storeVec_lane (m : Pixels) (p k : Int) (v : M64) (l : Fin 4) :
    storeVec m p k v (p + 4 * k + (l : Nat)) = v.lane l := by
  fin_cases l <;> simp [storeVec, M64.lane]

theorem storeVec_other (m : Pixels) {p k a : Int} (v : M64)
    (ha : ∀ l : Fin 4, a ≠ p + 4 * k + (l : Nat)) : storeVec m p k v a = m a := by
  have h0 : a ≠ p + 4 * k := by simpa using ha 0
  have h1 : a ≠ p + 4 * k + 1 := ha 1
  have h2 : a ≠ p + 4 * k + 2 := ha 2
  have h3 : a ≠ p + 4 * k + 3 := ha 3
  unfold storeVec
  rw [if_neg h0, if_neg h1, if_neg h2, if_neg h3]

/-- Where the row of a block is that is kept in register `r`. -/
theorem storeRows_pixel (m : Pixels) (hstride : 1 ≤ stride) (r l : Fin 4) :
    storeRows m p stride v (p + 4 * (stride * (r : Nat)) + (l : Nat)) = v.pixel (r, l) := by
  have hl := l.isLt
  have hlane : ∀ (m : Pixels) (k : Int) (w : M64) (a : Int), a = p + 4 * k + (l : Nat) →
      storeVec m p k w a = w.lane l := by
    rintro m k w a rfl
    exact storeVec_lane m p k w l
  have hother : ∀ (m : Pixels) (k : Int) (w : M64) (a : Int),
      (a < p + 4 * k ∨ p + 4 * k + 4 ≤ a) → storeVec m p k w a = m a := by
    intro m k w a ha
    refine storeVec_other m w fun j => ?_
    have hj := j.isLt
    omega
  unfold storeRows Regs.pixel
  match r with
  | 3 =>
      have hat : p + 4 * (stride * ((3 : Fin 4) : Nat)) + (l : Nat) =
          p + 4 * (3 * stride) + (l : Nat) := by
        show p + 4 * (stride * 3) + (l : Nat) = _
        omega
      exact hlane _ _ _ _ hat
  | 2 =>
      have hat : p + 4 * (stride * ((2 : Fin 4) : Nat)) + (l : Nat) =
          p + 4 * (2 * stride) + (l : Nat) := by
        show p + 4 * (stride * 2) + (l : Nat) = _
        omega
      rw [hother _ _ _ _ (by omega)]
      exact hlane _ _ _ _ hat
  | 1 =>
      have hat : p + 4 * (stride * ((1 : Fin 4) : Nat)) + (l : Nat) =
          p + 4 * stride + (l : Nat) := by
        show p + 4 * (stride * 1) + (l : Nat) = _
        omega
      rw [hother _ _ _ _ (by omega), hother _ _ _ _ (by omega)]
      exact hlane _ _ _ _ hat
  | 0 =>
      have hat : p + 4 * (stride * ((0 : Fin 4) : Nat)) + (l : Nat) = p + 4 * 0 + (l : Nat) := by
        show p + 4 * (stride * 0) + (l : Nat) = _
        omega
      rw [hother _ _ _ _ (by omega), hother _ _ _ _ (by omega), hother _ _ _ _ (by omega)]
      exact hlane _ _ _ _ hat

theorem storeRows_other (m : Pixels) {a : Int}
    (ha : ∀ r l : Fin 4, a ≠ p + 4 * (stride * (r : Nat)) + (l : Nat)) :
    storeRows m p stride v a = m a := by
  have h0 : ∀ l : Fin 4, a ≠ p + 4 * 0 + (l : Nat) := fun l => by
    have h : a ≠ p + 4 * (stride * 0) + (l : Nat) := ha 0 l
    omega
  have h1 : ∀ l : Fin 4, a ≠ p + 4 * stride + (l : Nat) := fun l => by
    have h : a ≠ p + 4 * (stride * 1) + (l : Nat) := ha 1 l
    omega
  have h2 : ∀ l : Fin 4, a ≠ p + 4 * (2 * stride) + (l : Nat) := fun l => by
    have h : a ≠ p + 4 * (stride * 2) + (l : Nat) := ha 2 l
    omega
  have h3 : ∀ l : Fin 4, a ≠ p + 4 * (3 * stride) + (l : Nat) := fun l => by
    have h : a ≠ p + 4 * (stride * 3) + (l : Nat) := ha 3 l
    omega
  unfold storeRows
  rw [storeVec_other _ _ h3, storeVec_other _ _ h2, storeVec_other _ _ h1, storeVec_other _ _ h0]

end Memory

/-- The row of a block in memory that a pass has in register `r`. -/
def row (backwards : Bool) (r : Fin 4) : Fin 4 := if backwards then r.rev else r

theorem row_row (backwards : Bool) (r : Fin 4) : row backwards (row backwards r) = r := by
  cases backwards with
  | false => rfl
  | true => exact Fin.rev_rev r

theorem pixel_turn (v : Regs) (backwards : Bool) (r l : Fin 4) :
    (v.turn backwards).pixel (r, l) = v.pixel (row backwards r, l) := by
  cases backwards with
  | false => rfl
  | true => exact congrArg (fun w : M64 => w.lane l) (get_flip v r)

theorem filters_stripBlock {filter : BiquadState M64 → Regs → Regs × BiquadState M64}
    {c : BiquadCoef M64} {place : Fin 4 → Fin 4 → Fin 4 × Fin 4}
    (hfilter : BlockFilters filter c place)
    (hplace : ∀ r l : Fin 4, ∃ k t, place k t = (r, l)) (backwards : Bool) {p stride : Int}
    (hstride : 1 ≤ stride) (s : Pixels × BiquadState M64) (line : Fin 4 → Nat → Int)
    (hline : ∀ k t : Fin 4, line k t =
      p + 4 * (stride * (row backwards (place k t).1 : Nat)) + ((place k t).2 : Nat)) :
    Filters (fun k => df2 (c.lane k)) (fun k => (List.range 4).map (line k)) s.1 s.2.lane
      (stripBlock filter backwards p stride s).1
      (stripBlock filter backwards p stride s).2.lane := by
  have hrange : List.range 4 = (List.finRange 4).map Fin.val := by decide
  obtain ⟨v, hv⟩ : ∃ v, v = (loadRows s.1 p stride).turn backwards := ⟨_, rfl⟩
  have hresult : stripBlock filter backwards p stride s =
      (storeRows s.1 p stride ((filter s.2 v).1.turn backwards), (filter s.2 v).2) := by
    unfold stripBlock
    rw [← hv]
  have hload : ∀ k, (List.range 4).map (s.1 ∘ line k) =
      (List.finRange 4).map fun t => v.pixel (place k t) := by
    intro k
    rw [hrange, List.map_map]
    refine List.map_congr_left fun t _ => ?_
    show s.1 (line k t) = v.pixel (place k t)
    rw [hline, hv, ← pixel_loadRows s.1]
    exact (pixel_turn _ _ _ _).symm
  have hstore : ∀ k, (List.range 4).map ((stripBlock filter backwards p stride s).1 ∘ line k) =
      (List.finRange 4).map fun t => (filter s.2 v).1.pixel (place k t) := by
    intro k
    rw [hrange, List.map_map]
    refine List.map_congr_left fun t _ => ?_
    show (stripBlock filter backwards p stride s).1 (line k t) = _
    rw [hresult, hline]
    refine (storeRows_pixel s.1 hstride _ _).trans ?_
    rw [pixel_turn, row_row]
  constructor
  · intro k
    rw [List.map_map, List.map_map, hload, hstore]
    exact hfilter.values s.2 v k
  · intro k
    rw [List.map_map, hload, hresult]
    exact hfilter.states s.2 v k
  · intro a ha
    rw [hresult]
    refine storeRows_other s.1 fun r l hrl => ?_
    obtain ⟨k, t, hkt⟩ := hplace (row backwards r) l
    refine ha k (List.mem_map.mpr ⟨t, List.mem_range.mpr t.isLt, ?_⟩)
    rw [hline, hkt, row_row, hrl]

theorem filters_strip {filter : BiquadState M64 → Regs → Regs × BiquadState M64}
    {c : BiquadCoef M64} {place : Fin 4 → Fin 4 → Fin 4 × Fin 4}
    (hfilter : BlockFilters filter c place)
    (hplace : ∀ r l : Fin 4, ∃ k t, place k t = (r, l)) (backwards : Bool)
    (p stride step : Int) (n : Nat) (line : Fin 4 → Nat → Int) (hstride : 1 ≤ stride)
    (hapart : ∀ j k s t, s < 4 * n → t < 4 * n → line j s = line k t → s = t)
    (hline : ∀ b < n, ∀ k t : Fin 4, line k (4 * b + t) = p + 4 * (step * b) +
      4 * (stride * (row backwards (place k t).1 : Nat)) + ((place k t).2 : Nat))
    (s : Pixels × BiquadState M64) :
    Filters (fun k => df2 (c.lane k)) (fun k => (List.range (4 * n)).map (line k)) s.1 s.2.lane
      (strip filter backwards p stride step n s).1
      (strip filter backwards p stride step n s).2.lane := by
  have hloop := Filters.loop BiquadState.lane hapart (fun b hb s =>
    filters_stripBlock hfilter hplace backwards hstride s (fun k t => line k (4 * b + t))
      (hline b hb)) s
  exact hloop

end GccMmx

/-! ## Lines of an image -/

/-- An image of blocks: its bytes are counted by an `unsigned int`. -/
structure Plane (w h : Nat) : Prop where
  width_pos : 0 < w
  width_dvd : 4 ∣ w
  height_pos : 0 < h
  height_dvd : 4 ∣ h
  bytes_lt : 2 * (w * h) < 2 ^ 32

/-- The pixels of column `x` of an image, from the top to the bottom. -/
def column (image : Int) (w h : Nat) (x : Int) : List Int :=
  (List.range h).map fun y : Nat => image + y * w + x

/-- The pixels of row `y`, from the left to the right. -/
def scanline (image : Int) (w : Nat) (y : Int) : List Int :=
  (List.range w).map fun x : Nat => image + y * w + x

theorem reverse_map_range (g : Nat → Int) (n : Nat) :
    ((List.range n).map g).reverse = (List.range n).map fun t => g (n - 1 - t) := by
  apply List.ext_getElem
  · simp
  · intro t ht ht'
    simp

/-- Two places in the same place are in the same row. -/
theorem same_row (w x x' y y' : Int) (hx : 0 ≤ x) (hxw : x < w) (hx' : 0 ≤ x') (hxw' : x' < w)
    (h : y * w + x = y' * w + x') : y = y' := by
  have hrow : ∀ y x : Int, 0 ≤ x → x < w → (y * w + x) / w = y := by
    intro y x hx hxw
    rw [Int.add_comm, Int.add_mul_ediv_right _ _ (by omega), Int.ediv_eq_zero_of_lt hx hxw,
      Int.zero_add]
  rw [← hrow y x hx hxw, h, hrow y' x' hx' hxw']

/-- What the `int`s of the strips are. -/
theorem Plane.blocks {w h : Nat} (hp : Plane w h) :
    ∃ q n : Nat, 0 < q ∧ 0 < n ∧ w = 4 * q ∧ h = 4 * n ∧
    h / 4 = n ∧ w / 4 = q ∧ (w : Int).tdiv 4 = q ∧ intMul 4 q = some (4 * q : Int) ∧
    intMul (n - 1) (4 * q) = some ((n - 1) * (4 * q) : Int) := by
  obtain ⟨q, hq⟩ := hp.width_dvd
  obtain ⟨n, hn⟩ := hp.height_dvd
  have hqpos : 0 < q := by
    have := hp.width_pos
    omega
  have hnpos : 0 < n := by
    have := hp.height_pos
    omega
  have hbytes : (32 * (q * n) : Int) < 2 ^ 32 := by
    have h := hp.bytes_lt
    rw [hq, hn, Nat.mul_mul_mul_comm] at h
    zify at h
    omega
  have hwide : (q : Int) * 1 ≤ q * n := Int.mul_le_mul_of_nonneg_left (by omega) (by omega)
  have hlast : ((n : Int) - 1) * (4 * q) = 4 * (q * n) - 4 * q := by ring
  refine ⟨q, n, hqpos, hnpos, hq, hn, by omega, by omega, ?_, ?_, ?_⟩
  · rw [Int.tdiv_eq_ediv_of_nonneg (by omega)]
    omega
  · exact intMul_eq_some.mpr ⟨by constructor <;> omega, rfl⟩
  · refine intMul_eq_some.mpr ⟨?_, rfl⟩
    rw [hlast]
    constructor <;> omega

namespace GccMmx

/-- The state after a strip is filtered, whose lines are `lines`. -/
def StripFiltered (c : BiquadCoef M64) (lines : Fin 4 → List Int) (s : Pixels × BiquadState M64)
    (result : Option (Pixels × BiquadState M64)) : Prop :=
  ∃ s', result = some s' ∧
    Filters (fun k => df2 (c.lane k)) lines s.1 s.2.lane s'.1 s'.2.lane

section Strips

variable {w h : Nat}

theorem vertical_strip (hp : Plane w h) (c : BiquadCoef M64) (image : Int) {i : Nat}
    (hi : i + 4 ≤ w) (s : Pixels × BiquadState M64) :
    StripFiltered c (fun k => column image w h (i + (k : Nat))) s
        (pixelBiquadVertbS16 (image + i) (h / 4 : Nat) w c s) ∧
      StripFiltered c (fun k => (column image w h (i + (k : Nat))).reverse) s
        (pixelBiquadVerbtS16 (image + i) (h / 4 : Nat) w c s) := by
  obtain ⟨q, n, hqpos, hnpos, hq, hn, hblocks, -, hstride, hfour, hlast⟩ := hp.blocks
  have hplace : ∀ r l : Fin 4, ∃ k t : Fin 4, ((t, k) : Fin 4 × Fin 4) = (r, l) :=
    fun r l => ⟨l, r, rfl⟩
  have hw : (w : Int) = 4 * q := by omega
  have hh : 4 * n = h := hn.symm
  constructor
  · have hstrip := filters_strip (blockFilters_biquad4x4 (c := c)) hplace false
      (image + i) q (4 * q) n (fun k t => image + t * w + (i + (k : Nat))) (by omega)
      (fun j k s' t' hs ht hst => by
        have hrow := same_row w (i + (j : Nat)) (i + (k : Nat)) s' t' (by omega) (by omega)
          (by omega) (by omega) (by omega)
        omega) (fun b hb k t => by
        simp only [row]
        push_cast
        rw [hw]
        ring) s
    rw [hh] at hstrip
    refine ⟨_, ?_, hstrip⟩
    unfold pixelBiquadVertbS16
    simp only [hstride, hblocks, hfour, Option.map_some, Int.toNat_natCast]
  · have hstrip := filters_strip (blockFilters_biquad4x4 (c := c)) hplace true
      (image + i + 4 * ((n - 1) * (4 * q))) q (-(4 * q)) n
      (fun k t => image + (h - 1 - t : Nat) * w + (i + (k : Nat))) (by omega)
      (fun j k s' t' hs ht hst => by
        have hrow := same_row w (i + (j : Nat)) (i + (k : Nat)) (h - 1 - s' : Nat)
          (h - 1 - t' : Nat) (by omega) (by omega) (by omega) (by omega) (by omega)
        omega) (fun b hb k t => by
        have ht := t.isLt
        have hback : ((h - 1 - (4 * b + t) : Nat) : Int) = 4 * n - 1 - (4 * b + (t : Nat)) := by
          omega
        have hrev : ((t.rev : Nat) : Int) = 3 - (t : Nat) := by
          rw [Fin.val_rev]
          omega
        simp only [row, if_true]
        rw [hback, hrev, hw]
        ring) s
    rw [hh] at hstrip
    simp only [column, reverse_map_range]
    refine ⟨_, ?_, hstrip⟩
    unfold pixelBiquadVerbtS16
    simp only [hstride, hblocks, hfour, Option.bind_some, hlast, Option.map_some,
      Int.toNat_natCast]

theorem horizontal_strip (hp : Plane w h) (c : BiquadCoef M64) (image : Int) (j : Nat)
    (s : Pixels × BiquadState M64) :
    StripFiltered c (fun k => scanline image w (j + (k : Nat))) s
        (pixelBiquadHorlrS16 (image + j * w) (w / 4 : Nat) w c s) ∧
      StripFiltered c (fun k => (scanline image w (j + (k : Nat))).reverse) s
        (pixelBiquadHorrlS16 (image + j * w) (w / 4 : Nat) w c s) := by
  obtain ⟨q, n, hqpos, hnpos, hq, hn, -, hblocks, hstride, hfour, -⟩ := hp.blocks
  have hplaceT : ∀ r l : Fin 4, ∃ k t : Fin 4, ((k, t) : Fin 4 × Fin 4) = (r, l) :=
    fun r l => ⟨r, l, rfl⟩
  have hplaceA : ∀ r l : Fin 4, ∃ k t : Fin 4, ((k.rev, t.rev) : Fin 4 × Fin 4) = (r, l) :=
    fun r l => ⟨r.rev, l.rev, by rw [Fin.rev_rev, Fin.rev_rev]⟩
  have hw : (w : Int) = 4 * q := by omega
  have hwide : 4 * q = w := hq.symm
  have hapart : ∀ y y' x x' : Int, 0 ≤ x → x < w → 0 ≤ x' → x' < w →
      image + y * w + x = image + y' * w + x' → x = x' := by
    intro y y' x x' hx hxw hx' hxw' h
    have hrow := same_row _ _ _ _ _ hx hxw hx' hxw' (show y * w + x = y' * w + x' by omega)
    rw [hrow] at h
    omega
  constructor
  · have hstrip := filters_strip (blockFilters_biquad4x4T (c := c)) hplaceT false
      (image + j * w) q 1 q (fun k t => image + (j + (k : Nat)) * w + t) (by omega)
      (fun j k s' t' hs ht hst => by
        have := hapart _ _ s' t' (by omega) (by omega) (by omega) (by omega) hst
        omega) (fun b hb k t => by
        simp only [row]
        push_cast
        rw [hw]
        ring) s
    rw [hwide] at hstrip
    refine ⟨_, ?_, hstrip⟩
    unfold pixelBiquadHorlrS16
    simp only [hstride, hblocks, hfour, Option.map_some, Int.toNat_natCast]
  · have hstrip := filters_strip (blockFilters_biquad4x4A (c := c)) hplaceA true
      (image + j * w + 4 * (q - 1)) q (-1) q
      (fun k t => image + (j + (k : Nat)) * w + (w - 1 - t : Nat)) (by omega)
      (fun j k s' t' hs ht hst => by
        have := hapart _ _ (w - 1 - s' : Nat) (w - 1 - t' : Nat) (by omega) (by omega) (by omega)
          (by omega) hst
        omega) (fun b hb k t => by
        have ht := t.isLt
        have hback : ((w - 1 - (4 * b + t) : Nat) : Int) = 4 * q - 1 - (4 * b + (t : Nat)) := by
          omega
        have hrev : ((t.rev : Nat) : Int) = 3 - (t : Nat) := by
          rw [Fin.val_rev]
          omega
        simp only [row, if_true, Fin.rev_rev]
        rw [hback, hrev, hw]
        ring) s
    rw [hwide] at hstrip
    simp only [scanline, reverse_map_range]
    refine ⟨_, ?_, hstrip⟩
    unfold pixelBiquadHorrlS16
    simp only [hstride, hblocks, hfour, Option.map_some, Int.toNat_natCast]

end Strips

/-- Each routine, on a strip of four lines, does what `df2` does along each line in its
direction, from the state of the line's lane, and leaves the rest of memory as it is. -/
theorem strips_filter_lines {w h : Nat} (hp : Plane w h) (c : BiquadCoef M64) (image : Int)
    (s : Pixels × BiquadState M64) :
    (∀ i : Nat, i + 4 ≤ w →
      StripFiltered c (fun k => column image w h (i + (k : Nat))) s
          (pixelBiquadVertbS16 (image + i) (h / 4 : Nat) w c s) ∧
        StripFiltered c (fun k => (column image w h (i + (k : Nat))).reverse) s
          (pixelBiquadVerbtS16 (image + i) (h / 4 : Nat) w c s)) ∧
      ∀ j : Nat, j + 4 ≤ h →
        StripFiltered c (fun k => scanline image w (j + (k : Nat))) s
            (pixelBiquadHorlrS16 (image + j * w) (w / 4 : Nat) w c s) ∧
          StripFiltered c (fun k => (scanline image w (j + (k : Nat))).reverse) s
            (pixelBiquadHorrlS16 (image + j * w) (w / 4 : Nat) w c s) :=
  ⟨fun _ hi => vertical_strip hp c image hi s, fun j _ => horizontal_strip hp c image j s⟩

/-- Coefficients that are not zero, different in each lane. -/
def blockCoef : BiquadCoef M64 :=
  ⟨⟨4096, 8192, 2048, 1024⟩, ⟨1, 2, 3, 4⟩, ⟨512, 256, 128, 64⟩, ⟨-4096, 100, 200, 300⟩,
    ⟨-2048, 5, 6, 7⟩⟩

/-- A block of different pixels, and a state that another one has left. -/
def blockStart : Pixels × BiquadState M64 :=
  (fun i => BitVec.ofInt 16 (1000 * i - 7000), ⟨⟨10, 20, 30, 40⟩, ⟨-1, -2, -3, -4⟩⟩)

theorem strips_filter_lines_block :
    StripFiltered blockCoef (fun k => column 0 4 4 (0 + (k : Nat))) blockStart
      (pixelBiquadVertbS16 0 1 4 blockCoef blockStart) ∧
    StripFiltered blockCoef (fun k => (scanline 0 4 (0 + (k : Nat))).reverse) blockStart
      (pixelBiquadHorrlS16 0 1 4 blockCoef blockStart) := by
  have hp : Plane 4 4 := ⟨by decide, by decide, by decide, by decide, by decide⟩
  exact ⟨((strips_filter_lines hp blockCoef 0 blockStart).1 0 (by decide)).1,
    ((strips_filter_lines hp blockCoef 0 blockStart).2 0 (by decide)).2⟩

end GccMmx

end PureDataPacket
