/-
# `PureDataPacket.Image.Filtering` — what a filtered image depends on

A filter has a state that goes along each line.  The setters are given the state that
lines begin with, and store it where the routines do not look: `portable` stores it in `u0`
and `u1`, and the routines begin with `u0_save` and `u1_save`; `gccMmx` has it the other way
round.  So each line begins with what the line before it left, and the first one with
what was in memory.

`Fresh` runs begin each line with the state of the setters.  An overflow of an `s32` wraps.

| | |
| :-- | :-- |
| `BeginsFresh` | every line begins with the state given to `setcoef`, whatever was in memory |
| `Filtered` | something is filtered: there are rounds, lines with pixels, and a direction |
| `black_filter` | black pixels stay black if nothing is left of earlier lines |
| `white_strip` | a strip that has a block leaves a white pixel |
| `beginsFresh_iff` | lines begin with the state of the setters if nothing is filtered |
-/
import Mathlib.Tactic.IntervalCases
import PureDataPacket.Image.Biquad
import PureDataPacket.Lib.Sweep

namespace PureDataPacket

/-! ## Parameters -/

/-- The coefficients as the setters scale them: `1 / a0 / 2` times coefficient `k`. -/
def scaled (coef : Nat → ℚ) (k : Nat) : ℚ :=
  let ia0 := toFloat (1 / coef 0)
  let ia0 := toFloat (ia0 * (1 / 2))
  toFloat (ia0 * coef k)

/-- The passes in two opposite directions. -/
def passes {α : Type} (forth back : Bool) (x y : α) : List α :=
  if forth && back then [x, y] else if forth then [x] else if back then [y] else []

/-- `nbp` rounds of them. -/
def repeated {α : Type} (nbp : Nat) (passes : List α) : List α :=
  (List.replicate nbp passes).flatten

/-! ## Plain C -/

namespace Portable

/-- `s32`. -/
abbrev S32 := BitVec 32

def toS32 (n : Int) : S32 := BitVec.ofInt 32 n

/-- The memory of a `t_bq`, in words. -/
abbrev Bq := Nat → S32

/-- `pdp_imageproc_bq_setcoef`. -/
def pdpImageprocBqSetcoef (d : Bq) (coef : Nat → ℚ) : Bq :=
  let d := Function.update d 0 (toS32 (float2fixed (scaled coef 1)))
  let d := Function.update d 1 (toS32 (float2fixed (scaled coef 2)))
  let d := Function.update d 2 (toS32 (float2fixed (scaled coef 3)))
  let d := Function.update d 3 (toS32 (float2fixed (scaled coef 4)))
  let d := Function.update d 4 (toS32 (float2fixed (scaled coef 5)))
  let d := Function.update d 5 (toS32 (float2fixed (coef 6)))
  Function.update d 6 (toS32 (float2fixed (coef 7)))

/-- `pdp_imageproc_bq_setnbpasses`. -/
def pdpImageprocBqSetnbpasses (d : Bq) (i : S32) : Bq := Function.update d 9 i

/-- `pdp_imageproc_bq_setdirection`. -/
def pdpImageprocBqSetdirection (d : Bq) (i : S32) : Bq := Function.update d 10 i

/-- One round of `pdp_imageproc_bq_scanline`: the pixel, and `u1` and `u2`. -/
def bqPixel (d : Bq) (u : S32 × S32) (x : S16) : S16 × S32 × S32 :=
  let xx := x.signExtend 32
  let yy := (d 2 * xx).sshiftRight 14 + u.1
  let u1 := (d 3 * xx).sshiftRight 14 + u.2 + (d 0 * yy).sshiftRight 14
  let u2 := (d 4 * xx).sshiftRight 14 + (d 1 * yy).sshiftRight 14
  (toS16 (CLAMP16 yy.toInt), u1, u2)

/-- The loop of `pdp_imageproc_bq_scanline`, from pixel `data` on. -/
def scanlineLoop (d : Bq) (stride : Int) : Nat → Int → Pixels × S32 × S32 → Pixels × S32 × S32
  | 0, _, s => s
  | count + 1, data, s =>
      let r := bqPixel d s.2 (s.1 data)
      scanlineLoop d stride count (data + stride) (Function.update s.1 data r.1, r.2)

/-- The arguments of a call of `pdp_imageproc_bq_scanline`. -/
structure Scan where
  data : Int
  count : Nat
  stride : Int

/-- `pdp_imageproc_bq_scanline`. -/
def pdpImageprocBqScanline (s : Pixels × Bq) (c : Scan) : Pixels × Bq :=
  let r := scanlineLoop s.2 c.stride c.count c.data (s.1, s.2 7, s.2 8)
  (r.1, Function.update (Function.update s.2 7 r.2.1) 8 r.2.2)

/-- The calls of `pdp_imageproc_bq_process`.  Bits 0 to 3 of the direction are
`PDP_IMAGEPROC_BIQUAD_TOP2BOTTOM`, `BOTTOM2TOP`, `LEFT2RIGHT` and `RIGHT2LEFT`. -/
def scans (width height nbp direction : Nat) : List Scan :=
  let below := u32 (ofInt32 (height - 1) * width)
  let right := ofInt32 (width - 1)
  ((List.range width).flatMap fun i => repeated nbp (passes (direction.testBit 0)
    (direction.testBit 1) ⟨i, height, toInt32 width⟩
      ⟨below + i, height, toInt32 (-(width : Int))⟩)) ++
    (counter 0 (u32 (width * height)) width).flatMap fun i => repeated nbp (passes
      (direction.testBit 2) (direction.testBit 3) ⟨i, width, 1⟩ ⟨right + i, width, -1⟩)

/-- `pdp_imageproc_bq_process`. -/
def pdpImageprocBqProcess (d : Bq) (width height : Nat) (image : Pixels) : Pixels × Bq :=
  (scans width height (d 9).toNat (d 10).toNat).foldl pdpImageprocBqScanline (image, d)

end Portable

/-! ## Intrinsics -/

namespace GccMmx

/-- `t_bq`. -/
structure Bq where
  coefs : BiquadCoef M64
  u : BiquadState M64
  save : BiquadState M64
  nbpasses : Nat
  direction : Nat

/-- `pdp_imageproc_bq_setcoef`. -/
def pdpImageprocBqSetcoef (d : Bq) (coef : Nat → ℚ) : Bq :=
  { d with
    coefs := ⟨setvec (scaled coef 1), setvec (scaled coef 2), setvec (scaled coef 3),
      setvec (scaled coef 4), setvec (scaled coef 5)⟩
    save := ⟨setvec (coef 6), setvec (coef 7)⟩ }

/-- `pdp_imageproc_bq_setnbpasses`. -/
def pdpImageprocBqSetnbpasses (d : Bq) (nbpasses : Nat) : Bq := { d with nbpasses := nbpasses }

/-- `pdp_imageproc_bq_setdirection`. -/
def pdpImageprocBqSetdirection (d : Bq) (direction : Nat) : Bq := { d with direction := direction }

/-- A routine for strips, as `pdp_imageproc_bq_process` calls it: where, and with how many
blocks. -/
structure Call where
  routine : Int → Int → Int → BiquadCoef M64 → Pixels × BiquadState M64 →
    Option (Pixels × BiquadState M64)
  image : Int
  nb4x4Blocks : Nat

/-- The calls of `pdp_imageproc_bq_process`. -/
def calls (width height nbp direction : Nat) : List Call :=
  ((counter 0 width 4).flatMap fun i => repeated nbp (passes (direction.testBit 0)
    (direction.testBit 1) ⟨pixelBiquadVertbS16, i, height / 4⟩
      ⟨pixelBiquadVerbtS16, i, height / 4⟩)) ++
    (counter 0 (u32 (width * height)) (u32 (4 * width))).flatMap fun i => repeated nbp (passes
      (direction.testBit 2) (direction.testBit 3) ⟨pixelBiquadHorlrS16, i, width / 4⟩
        ⟨pixelBiquadHorrlS16, i, width / 4⟩)

/-- A call: `c` and `s` in the source are the coefficients and `u0`. -/
def runCall (width : Nat) (s : Pixels × Bq) (c : Call) : Option (Pixels × Bq) :=
  (c.routine c.image c.nb4x4Blocks (toInt32 width) s.2.coefs (s.1, s.2.u)).map fun r =>
    (r.1, { s.2 with u := r.2 })

/-- `pdp_imageproc_bq_process`. -/
def pdpImageprocBqProcess (d : Bq) (width height : Nat) (image : Pixels) : Option (Pixels × Bq) :=
  (calls width height d.nbpasses d.direction).foldlM (runCall width) (image, d)

end GccMmx

/-! ## Fresh runs -/

namespace Portable

/-- The words of a new `t_bq` after the setters: what was in memory was `d`. -/
def setters (d : Bq) (coef : Nat → ℚ) (nbpasses direction : S32) : Bq :=
  pdpImageprocBqSetdirection (pdpImageprocBqSetnbpasses (pdpImageprocBqSetcoef d coef) nbpasses)
    direction

/-- A line that begins with the state given to `setcoef`. -/
def freshScanline (coef : Nat → ℚ) (image : Pixels) (c : Scan) : Pixels :=
  (scanlineLoop (pdpImageprocBqSetcoef (fun _ => 0) coef) c.stride c.count c.data
    (image, toS32 (float2fixed (coef 6)), toS32 (float2fixed (coef 7)))).1

/-- Every line begins with the state given to `setcoef`, whatever was in memory. -/
def BeginsFresh (width height : Nat) (nbpasses direction : S32) : Prop :=
  ∀ (coef : Nat → ℚ) (image : Pixels) (d : Bq),
    (pdpImageprocBqProcess (setters d coef nbpasses direction) width height image).1 =
      (scans width height nbpasses.toNat direction.toNat).foldl (freshScanline coef) image

end Portable

namespace GccMmx

def setters (d : Bq) (coef : Nat → ℚ) (nbpasses direction : Nat) : Bq :=
  pdpImageprocBqSetdirection (pdpImageprocBqSetnbpasses (pdpImageprocBqSetcoef d coef) nbpasses)
    direction

/-- A strip whose lines begin with the state given to `setcoef`. -/
def freshCall (coef : Nat → ℚ) (width : Nat) (image : Pixels) (c : Call) : Option Pixels :=
  (c.routine c.image c.nb4x4Blocks (toInt32 width)
    ⟨setvec (scaled coef 1), setvec (scaled coef 2), setvec (scaled coef 3),
      setvec (scaled coef 4), setvec (scaled coef 5)⟩
    (image, ⟨setvec (coef 6), setvec (coef 7)⟩)).map Prod.fst

def BeginsFresh (width height nbpasses direction : Nat) : Prop :=
  ∀ (coef : Nat → ℚ) (image : Pixels) (d : Bq),
    (pdpImageprocBqProcess (setters d coef nbpasses direction) width height image).map Prod.fst =
      (calls width height nbpasses direction).foldlM (freshCall coef width) image

end GccMmx

/-! ## Lists of passes -/

theorem mem_passes {α : Type} {forth back : Bool} {x y z : α} :
    z ∈ passes forth back x y ↔ forth = true ∧ z = x ∨ back = true ∧ z = y := by
  cases forth <;> cases back <;> simp [passes]

theorem mem_repeated {α : Type} {nbp : Nat} {l : List α} {z : α} :
    z ∈ repeated nbp l ↔ 0 < nbp ∧ z ∈ l := by
  unfold repeated
  rw [List.mem_flatten]
  constructor
  · rintro ⟨l', hl', hz⟩
    obtain ⟨hnbp, rfl⟩ := List.mem_replicate.mp hl'
    exact ⟨Nat.pos_of_ne_zero hnbp, hz⟩
  · rintro ⟨hnbp, hz⟩
    exact ⟨l, List.mem_replicate.mpr ⟨by omega, rfl⟩, hz⟩

/-! ## An example: one coefficient, and lines that begin with white -/

/-- `a0`, `-a1`, `-a2`, `b0`, `b1`, `b2`, `u0`, `u1`. -/
def whiteStart : Nat → ℚ
  | 0 => 1 / 2
  | 1 => 1
  | 6 => 1
  | _ => 0

theorem toFloat_intCast {n : Int} (h : |(n : ℚ)| < 2 ^ 24) : toFloat n = n := by
  have hmem := toFloat_mem h (le_refl (n : ℚ)) (le_refl (n : ℚ))
  exact le_antisymm hmem.2 hmem.1

theorem toFloat_zero : toFloat 0 = 0 := by
  have h := toFloat_intCast (n := 0) (by norm_num)
  exact_mod_cast h

theorem toFloat_one : toFloat 1 = 1 := by
  have h := toFloat_intCast (n := 1) (by norm_num)
  exact_mod_cast h

theorem scaled_whiteStart (k : Nat) : scaled whiteStart k = toFloat (whiteStart k) := by
  have htwo : toFloat 2 = 2 := by
    have h := toFloat_intCast (n := 2) (by norm_num)
    exact_mod_cast h
  have hinverse : (1 / whiteStart 0 : ℚ) = 2 := by norm_num [whiteStart]
  have hhalf : (2 * (1 / 2) : ℚ) = 1 := by norm_num
  unfold scaled
  simp only [hinverse, htwo, hhalf, toFloat_one, one_mul]

theorem float2fixed_zero : float2fixed 0 = 0 := by
  have hbig : ¬((0 : ℚ) > 1) := by norm_num
  have hneg : ¬((0 : ℚ) < -1) := by norm_num
  have htrunc : truncate 0 = 0 := by simp [truncate]
  unfold float2fixed
  simp only [if_neg hbig, if_neg hneg, zero_mul, toFloat_zero, htrunc]

theorem float2fixed_one : float2fixed 1 = 0x7fff := by
  have hfloat : toFloat 0x7fff = 0x7fff := by
    have h := toFloat_intCast (n := 0x7fff) (by norm_num)
    exact_mod_cast h
  have htrunc : truncate 0x7fff = 0x7fff := by
    have h : 0x7fff ≤ truncate 0x7fff ∧ truncate 0x7fff ≤ 0x7fff :=
      truncate_mem (by norm_num) (by norm_num)
    omega
  have hneg : ¬((1 : ℚ) < -1) := by norm_num
  unfold float2fixed
  simp only [gt_iff_lt, lt_self_iff_false, if_false, if_neg hneg, one_mul, hfloat, htrunc]

namespace Portable

/-! ## Scanlines -/

/-- Black pixels stay black if nothing is left of earlier lines. -/
theorem scanlineLoop_black (d : Bq) (stride : Int) (n : Nat) (data : Int) :
    scanlineLoop d stride n data (fun _ => 0, 0, 0) = (fun _ => 0, 0, 0) := by
  have hpixel : bqPixel d (0, 0) 0 = (0, 0, 0) := by
    simp [bqPixel, CLAMP16, toS16]
  induction n generalizing data with
  | zero => rfl
  | succ n ih =>
      have hupdate : Function.update (fun _ : Int => (0 : S16)) data 0 = fun _ => 0 :=
        Function.update_eq_self data _
      unfold scanlineLoop
      simp only [hpixel, hupdate]
      exact ih (data + stride)

theorem scanlineLoop_other (d : Bq) (stride : Int) (n : Nat) (data : Int)
    (s : Pixels × S32 × S32) {a : Int} (ha : ∀ k < n, a ≠ data + k * stride) :
    (scanlineLoop d stride n data s).1 a = s.1 a := by
  induction n generalizing data s with
  | zero => rfl
  | succ n ih =>
      have hfirst : a ≠ data := by
        have := ha 0 (Nat.succ_pos n)
        omega
      unfold scanlineLoop
      rw [ih (data + stride) _ fun k hk => ?_]
      · exact Function.update_of_ne hfirst _ _
      · have := ha (k + 1) (Nat.succ_lt_succ hk)
        push_cast at this
        rw [Int.add_mul, Int.one_mul] at this
        omega

theorem black_scanlines (l : List Scan) (d : Bq) (h7 : d 7 = 0) (h8 : d 8 = 0) :
    (l.foldl pdpImageprocBqScanline (fun _ => 0, d)).1 = fun _ => 0 := by
  have hstep : ∀ c, pdpImageprocBqScanline (fun _ => 0, d) c = (fun _ => 0, d) := by
    intro c
    unfold pdpImageprocBqScanline
    simp only [h7, h8, scanlineLoop_black]
    rw [← h7, Function.update_eq_self, h7, ← h8, Function.update_eq_self]
  induction l with
  | nil => rfl
  | cons c l ih =>
      rw [List.foldl_cons, hstep]
      exact ih

/-- The first pixel of a line that begins with white. -/
theorem freshScanline_white (image : Pixels) {c : Scan} (hcount : 0 < c.count)
    (hstride : c.stride ≠ 0) : freshScanline whiteStart image c c.data = 0x7fff#16 := by
  obtain ⟨n, hn⟩ : ∃ n, c.count = n + 1 := ⟨c.count - 1, by omega⟩
  have hb0 : pdpImageprocBqSetcoef (fun _ => 0) whiteStart 2 = 0 := by
    have hzero : float2fixed (scaled whiteStart 3) = 0 := by
      rw [scaled_whiteStart]
      exact (congrArg float2fixed toFloat_zero).trans float2fixed_zero
    simp [pdpImageprocBqSetcoef, hzero, toS32]
  have hu : toS32 (float2fixed (whiteStart 6)) = 0x7fff#32 := by
    have hone : whiteStart 6 = 1 := rfl
    rw [hone, float2fixed_one]
    rfl
  have hpixel : ∀ u2 x, (bqPixel (pdpImageprocBqSetcoef (fun _ => 0) whiteStart)
      (0x7fff#32, u2) x).1 = 0x7fff#16 := by
    intro u2 x
    have hproduct : ∀ y : S32, ((0 : S32) * y).sshiftRight 14 = 0 := by
      intro y
      simp
    have hclamp : toS16 (CLAMP16 (0x7fff#32).toInt) = 0x7fff#16 := by decide
    simp only [bqPixel, hb0, hproduct]
    exact hclamp
  unfold freshScanline
  rw [hn, hu]
  unfold scanlineLoop
  rw [scanlineLoop_other]
  · show Function.update _ _ _ c.data = _
    rw [Function.update_self]
    exact hpixel _ _
  · intro k hk h
    have hzero : ((k : Int) + 1) * c.stride = 0 := by
      rw [Int.add_mul, Int.one_mul]
      omega
    rcases Int.mul_eq_zero.mp hzero with h | h
    · omega
    · exact hstride h

/-! ## All scanlines -/

/-- Something is filtered: there are rounds, lines with pixels, and a direction. -/
def Filtered (width height nbp direction : Nat) : Prop :=
  0 < nbp ∧ 0 < width ∧ 0 < height ∧ ∃ bit < 4, direction.testBit bit = true

section Scans

variable {width height nbp direction : Nat}

theorem of_mem_scans {c : Scan} (hc : c ∈ scans width height nbp direction) :
    0 < nbp ∧ (∃ bit < 4, direction.testBit bit = true) ∧
      ((c.count = height ∧ 0 < width ∧
        (c.stride = toInt32 width ∨ c.stride = toInt32 (-(width : Int)))) ∨
      (c.count = width ∧ 0 < u32 (width * height) ∧ (c.stride = 1 ∨ c.stride = -1))) := by
  unfold scans at hc
  generalize toInt32 width = down at hc ⊢
  generalize toInt32 (-(width : Int)) = up at hc ⊢
  rcases List.mem_append.mp hc with hc | hc
  · obtain ⟨i, hi, hc⟩ := List.mem_flatMap.mp hc
    have hwidth : 0 < width := Nat.lt_of_le_of_lt (Nat.zero_le i) (List.mem_range.mp hi)
    obtain ⟨hnbp, hc⟩ := mem_repeated.mp hc
    rcases mem_passes.mp hc with ⟨hbit, rfl⟩ | ⟨hbit, rfl⟩
    · exact ⟨hnbp, ⟨0, by omega, hbit⟩, Or.inl ⟨rfl, hwidth, Or.inl rfl⟩⟩
    · exact ⟨hnbp, ⟨1, by omega, hbit⟩, Or.inl ⟨rfl, hwidth, Or.inr rfl⟩⟩
  · obtain ⟨i, hi, hc⟩ := List.mem_flatMap.mp hc
    obtain ⟨hnbp, hc⟩ := mem_repeated.mp hc
    have harea : 0 < u32 (width * height) := by
      by_contra hzero
      have hempty : u32 (width * height) = 0 := by omega
      rw [hempty] at hi
      simp [counter, iterations] at hi
    rcases mem_passes.mp hc with ⟨hbit, rfl⟩ | ⟨hbit, rfl⟩
    · exact ⟨hnbp, ⟨2, by omega, hbit⟩, Or.inr ⟨rfl, harea, Or.inl rfl⟩⟩
    · exact ⟨hnbp, ⟨3, by omega, hbit⟩, Or.inr ⟨rfl, harea, Or.inr rfl⟩⟩

/-- If something is filtered, all scanlines have pixels, one after the other. -/
theorem scans_of_filtered (hbytes : 2 * (width * height) < 2 ^ 32)
    (h : Filtered width height nbp direction) :
    scans width height nbp direction ≠ [] ∧
      ∀ c ∈ scans width height nbp direction, 0 < c.count ∧ c.stride ≠ 0 := by
  obtain ⟨hnbp, hwidth, hheight, bit, hbit, hset⟩ := h
  have hle : width * 1 ≤ width * height := Nat.mul_le_mul_left width hheight
  constructor
  · have harea : u32 (width * height) = width * height := u32_eq_self (by omega)
    have hfirst : (0 : Int) ∈ counter 0 (u32 (width * height)) width := by
      rw [harea]
      exact (mem_counter (by omega)).mpr ⟨0, by simp, by
        have := Nat.mul_pos hwidth hheight
        omega⟩
    intro hempty
    have hvertical := List.append_eq_nil_iff.mp hempty
    have hnone : ∀ {α β : Type} {l : List α} {g : α → List β} {a : α} {b : β},
        l.flatMap g = [] → a ∈ l → b ∉ g a := by
      intro α β l g a b hl ha hb
      have := List.mem_flatMap.mpr ⟨a, ha, hb⟩
      rw [hl] at this
      exact List.not_mem_nil this
    interval_cases bit
    · exact hnone hvertical.1 (List.mem_range.mpr hwidth)
        (mem_repeated.mpr ⟨hnbp, mem_passes.mpr (Or.inl ⟨hset, rfl⟩)⟩)
    · exact hnone hvertical.1 (List.mem_range.mpr hwidth)
        (mem_repeated.mpr ⟨hnbp, mem_passes.mpr (Or.inr ⟨hset, rfl⟩)⟩)
    · exact hnone hvertical.2 hfirst
        (mem_repeated.mpr ⟨hnbp, mem_passes.mpr (Or.inl ⟨hset, rfl⟩)⟩)
    · exact hnone hvertical.2 hfirst
        (mem_repeated.mpr ⟨hnbp, mem_passes.mpr (Or.inr ⟨hset, rfl⟩)⟩)
  · intro c hc
    have hint : toInt32 width = width := toInt32_of_nat_lt (by omega)
    have hneg : toInt32 (-(width : Int)) = -width := toInt32_of_isInt (by
      constructor <;> omega)
    obtain ⟨-, -, ⟨hcount, -, hstride⟩ | ⟨hcount, -, hstride⟩⟩ := of_mem_scans hc
    · rw [hint, hneg] at hstride
      exact ⟨by omega, by omega⟩
    · exact ⟨by omega, by omega⟩

theorem count_of_not_filtered (h : ¬Filtered width height nbp direction) {c : Scan}
    (hc : c ∈ scans width height nbp direction) : c.count = 0 := by
  obtain ⟨hnbp, hbit, ⟨hcount, hwidth, -⟩ | ⟨hcount, harea, -⟩⟩ := of_mem_scans hc
  · by_contra hne
    exact h ⟨hnbp, hwidth, by omega, hbit⟩
  · by_contra hne
    refine h ⟨hnbp, by omega, Nat.pos_of_ne_zero fun hheight => ?_, hbit⟩
    rw [hheight, Nat.mul_zero] at harea
    exact Nat.lt_irrefl 0 harea

theorem idle_scanlines {l : List Scan} (hl : ∀ c ∈ l, c.count = 0) (s : Pixels × Bq)
    (coef : Nat → ℚ) : (l.foldl pdpImageprocBqScanline s).1 = s.1 ∧
      l.foldl (freshScanline coef) s.1 = s.1 := by
  induction l generalizing s with
  | nil => exact ⟨rfl, rfl⟩
  | cons c l ih =>
      have hcount := hl c List.mem_cons_self
      have hrest := ih (fun c hc => hl c (List.mem_cons_of_mem _ hc)) (pdpImageprocBqScanline s c)
      have hsame : (pdpImageprocBqScanline s c).1 = s.1 := by
        unfold pdpImageprocBqScanline
        rw [hcount]
        rfl
      have hfresh : freshScanline coef s.1 c = s.1 := by
        unfold freshScanline
        rw [hcount]
        rfl
      rw [hsame] at hrest
      rw [List.foldl_cons, List.foldl_cons, hfresh]
      exact hrest

/-- Lines begin with the state that the setters are given if nothing is filtered. -/
theorem beginsFresh_iff (hbytes : 2 * (width * height) < 2 ^ 32) {nbp direction : S32} :
    BeginsFresh width height nbp direction ↔
      ¬Filtered width height nbp.toNat direction.toNat := by
  have hnbp : ∀ d coef, setters d coef nbp direction 9 = nbp := fun d coef => by
    simp [setters, pdpImageprocBqSetdirection, pdpImageprocBqSetnbpasses]
  have hdirection : ∀ d coef, setters d coef nbp direction 10 = direction := fun d coef => by
    simp [setters, pdpImageprocBqSetdirection]
  constructor
  · intro hfresh hfiltered
    obtain ⟨hne, hall⟩ := scans_of_filtered hbytes hfiltered
    have hrun := hfresh whiteStart (fun _ => 0) fun _ => 0
    unfold pdpImageprocBqProcess at hrun
    rw [hnbp, hdirection, black_scanlines _ _ (by rfl) (by rfl)] at hrun
    obtain ⟨init, last, hlist⟩ : ∃ init last, scans width height nbp.toNat direction.toNat =
        init ++ [last] := ⟨_, _, (List.dropLast_append_getLast hne).symm⟩
    obtain ⟨hcount, hstride⟩ := hall last (by rw [hlist]; simp)
    rw [hlist, List.foldl_append, List.foldl_cons, List.foldl_nil] at hrun
    have hwhite := congrFun hrun last.data
    rw [freshScanline_white _ hcount hstride] at hwhite
    exact absurd hwhite (by decide)
  · intro hidle coef image d
    have hl := fun c hc => count_of_not_filtered hidle (c := c) hc
    obtain ⟨hsame, hsame'⟩ := idle_scanlines hl (image, setters d coef nbp direction) coef
    unfold pdpImageprocBqProcess
    rw [hnbp, hdirection, hsame, hsame']

end Scans

end Portable

namespace GccMmx

/-! ## Strips -/

/-- The filters of blocks. -/
inductive BlockFilter : (BiquadCoef M64 → BiquadState M64 → Regs → Regs × BiquadState M64) → Prop
  | straight : BlockFilter biquad4x4
  | transposed : BlockFilter biquad4x4T
  | antitransposed : BlockFilter biquad4x4A

def plain (a : S16) : M64 := ⟨a, a, a, a⟩

def plainRegs (a : S16) : Regs := ⟨plain a, plain a, plain a, plain a⟩

theorem turn_plainRegs (a : S16) (backwards : Bool) :
    (plainRegs a).turn backwards = plainRegs a := by
  cases backwards <;> rfl

section Steady

variable {F : BiquadCoef M64 → BiquadState M64 → Regs → Regs × BiquadState M64}
  {c : BiquadCoef M64} {a : S16} {P : BiquadState M64 → Prop} {R : Regs → Prop}

/-- What the filter of columns does to all blocks in question, all three filters do. -/
theorem BlockFilter.steady (hF : BlockFilter F)
    (hstep : ∀ u v, P u → R v → (biquad4x4 c u v).1 = plainRegs a ∧ P (biquad4x4 c u v).2)
    (htranspose : ∀ v, R v → R (transpose v)) (hantitranspose : ∀ v, R v → R (antitranspose v))
    {u : BiquadState M64} {v : Regs} (hu : P u) (hv : R v) :
    (F c u v).1 = plainRegs a ∧ P (F c u v).2 := by
  cases hF with
  | straight => exact hstep u v hu hv
  | transposed =>
      obtain ⟨hout, hstate⟩ := hstep u (transpose v) hu (htranspose v hv)
      refine ⟨?_, hstate⟩
      show transpose (biquad4x4 c u (transpose v)).1 = plainRegs a
      rw [hout]
      rfl
  | antitransposed =>
      obtain ⟨hout, hstate⟩ := hstep u (antitranspose v) hu (hantitranspose v hv)
      refine ⟨?_, hstate⟩
      show antitranspose (biquad4x4 c u (antitranspose v)).1 = plainRegs a
      rw [hout]
      rfl

end Steady

/-- The state after lines of black pixels. -/
def blackState : BiquadState M64 := ⟨plain 0#16, plain 0#16⟩

theorem mulhiPixel_zero (a : S16) : mulhiPixel a 0#16 = 0#16 ∧ mulhiPixel 0#16 a = 0#16 := by
  simp [mulhiPixel, toS16]

theorem black_df2 (c : BiquadCoef M64) :
    biquadDf2 c blackState (plain 0#16) = (plain 0#16, blackState) := by
  have hadds : addsPixel 0#16 0#16 = 0#16 := by decide
  simp [biquadDf2, blackState, plain, pmulhw, paddw, paddsw, M64.map₂, mulhiPixel_zero, hadds]

theorem black_filter {F : BiquadCoef M64 → BiquadState M64 → Regs → Regs × BiquadState M64}
    (hF : BlockFilter F) (c : BiquadCoef M64) :
    F c blackState (plainRegs 0#16) = (plainRegs 0#16, blackState) := by
  have hsteady := hF.steady (c := c) (a := 0#16) (P := fun u => u = blackState)
    (R := fun v => v = plainRegs 0#16) (by
      rintro u v rfl rfl
      simp [biquad4x4, plainRegs, black_df2]) (by
      rintro v rfl
      rfl) (by
      rintro v rfl
      rfl) rfl rfl
  exact Prod.ext hsteady.1 hsteady.2

theorem black_strip {F : BiquadCoef M64 → BiquadState M64 → Regs → Regs × BiquadState M64}
    (hF : BlockFilter F) (c : BiquadCoef M64) (backwards : Bool) (p stride step : Int) (n : Nat) :
    strip (F c) backwards p stride step n (fun _ => 0, blackState) = (fun _ => 0, blackState) := by
  have hblock : ∀ p, stripBlock (F c) backwards p stride (fun _ => 0, blackState) =
      (fun _ => 0, blackState) := by
    intro p
    have hload : loadRows (fun _ => 0) p stride = plainRegs 0#16 := rfl
    have hstore : storeRows (fun _ => 0) p stride (plainRegs 0#16) = fun _ => 0 := by
      funext a
      simp [storeRows, storeVec, plainRegs, plain]
    unfold stripBlock
    simp only [hload, turn_plainRegs, black_filter hF c, hstore]
  unfold strip
  induction n with
  | zero => rfl
  | succ n ih =>
      rw [List.range_succ, List.foldl_append, ih]
      exact hblock _

/-- The coefficients of `whiteStart`. -/
def whiteCoefs : BiquadCoef M64 := ⟨plain 0x7fff#16, plain 0#16, plain 0#16, plain 0#16, plain 0#16⟩

def White (u : BiquadState M64) : Prop :=
  ∃ a, (a = 0x7fff#16 ∨ a = 0x3fff#16) ∧ u = ⟨plain a, plain 0#16⟩

theorem white_df2 {u : BiquadState M64} (hu : White u) (x : M64) :
    (biquadDf2 whiteCoefs u x).1 = plain 0x7fff#16 ∧ White (biquadDf2 whiteCoefs u x).2 := by
  obtain ⟨a, ha, rfl⟩ := hu
  have hsum : addsPixel (addsPixel a a) (addsPixel a a) = 0x7fff#16 := by
    rcases ha with rfl | rfl <;> decide
  have hnext : mulhiPixel 0x7fff#16 0x7fff#16 = 0x3fff#16 := by decide
  constructor
  · simp [biquadDf2, whiteCoefs, plain, pmulhw, paddw, paddsw, M64.map₂, mulhiPixel_zero, hsum]
  · refine ⟨0x3fff#16, Or.inr rfl, ?_⟩
    simp [biquadDf2, whiteCoefs, plain, pmulhw, paddw, paddsw, M64.map₂, mulhiPixel_zero, hsum,
      hnext]

theorem white_filter {F : BiquadCoef M64 → BiquadState M64 → Regs → Regs × BiquadState M64}
    (hF : BlockFilter F) {u : BiquadState M64} (hu : White u) (v : Regs) :
    (F whiteCoefs u v).1 = plainRegs 0x7fff#16 ∧ White (F whiteCoefs u v).2 := by
  refine hF.steady (P := White) (R := fun _ => True) ?_ (fun _ _ => trivial) (fun _ _ => trivial)
    hu trivial
  intro u v hu _
  obtain ⟨h0, hu⟩ := white_df2 hu v.v0
  obtain ⟨h1, hu⟩ := white_df2 hu v.v1
  obtain ⟨h2, hu⟩ := white_df2 hu v.v2
  obtain ⟨h3, hu⟩ := white_df2 hu v.v3
  refine ⟨?_, hu⟩
  simp only [biquad4x4, h0, h1, h2, h3]
  rfl

theorem white_strip {F : BiquadCoef M64 → BiquadState M64 → Regs → Regs × BiquadState M64}
    (hF : BlockFilter F) (backwards : Bool) (p stride step : Int) (n : Nat)
    (s : Pixels × BiquadState M64) (hs : White s.2) :
    White (strip (F whiteCoefs) backwards p stride step n s).2 ∧
      (0 < n → ∃ a, (strip (F whiteCoefs) backwards p stride step n s).1 a = 0x7fff#16) := by
  unfold strip
  induction n with
  | zero => exact ⟨hs, fun h => absurd h (Nat.lt_irrefl 0)⟩
  | succ n ih =>
      rw [List.range_succ, List.foldl_append]
      obtain ⟨m, hm⟩ : ∃ m, m = (List.range n).foldl (fun s (b : Nat) =>
        stripBlock (F whiteCoefs) backwards (p + 4 * (step * b)) stride s) s := ⟨_, rfl⟩
      rw [← hm] at ih ⊢
      obtain ⟨hout, hwhite⟩ := white_filter hF ih.1
        ((loadRows m.1 (p + 4 * (step * n)) stride).turn backwards)
      refine ⟨hwhite, fun _ => ⟨p + 4 * (step * n) + 4 * (3 * stride), ?_⟩⟩
      show storeRows m.1 _ stride (((F whiteCoefs) m.2 _).1.turn backwards) _ = _
      rw [hout, turn_plainRegs]
      exact if_pos rfl

/-! ## All strips -/

/-- Something is filtered: there are rounds, a direction, and blocks in that direction. -/
def Filtered (width height nbp direction : Nat) : Prop :=
  0 < nbp ∧ (((direction.testBit 0 = true ∨ direction.testBit 1 = true) ∧ 0 < width ∧ 4 ≤ height) ∨
    ((direction.testBit 2 = true ∨ direction.testBit 3 = true) ∧ 4 ≤ width ∧ 0 < height))

/-- What a call does, if no `int` is too large. -/
def Runs (width : Nat) (c : Call) : Prop :=
  ∃ F, BlockFilter F ∧ ∃ backwards p step, ∀ coefs s,
    c.routine c.image c.nb4x4Blocks (toInt32 width) coefs s =
      some (strip (F coefs) backwards p (width / 4 : Nat) step c.nb4x4Blocks s)

section Calls

variable {width height nbp direction : Nat}

theorem of_mem_calls {c : Call} (hc : c ∈ calls width height nbp direction) :
    0 < nbp ∧ (((direction.testBit 0 = true ∨ direction.testBit 1 = true) ∧ 0 < width ∧
        c.nb4x4Blocks = height / 4 ∧
        (c.routine = pixelBiquadVertbS16 ∨ c.routine = pixelBiquadVerbtS16)) ∨
      ((direction.testBit 2 = true ∨ direction.testBit 3 = true) ∧ 0 < u32 (width * height) ∧
        c.nb4x4Blocks = width / 4 ∧
        (c.routine = pixelBiquadHorlrS16 ∨ c.routine = pixelBiquadHorrlS16))) := by
  have hbound : ∀ {n step i : Int}, i ∈ counter 0 n step → 0 < n := by
    intro n step i hi
    by_contra hn
    have hempty : counter 0 n step = [] := by
      unfold counter iterations
      rw [if_pos (by omega)]
      rfl
    rw [hempty] at hi
    exact List.not_mem_nil hi
  rcases List.mem_append.mp hc with hc | hc
  · obtain ⟨i, hi, hc⟩ := List.mem_flatMap.mp hc
    have hwidth := hbound hi
    obtain ⟨hnbp, hc⟩ := mem_repeated.mp hc
    rcases mem_passes.mp hc with ⟨hbit, rfl⟩ | ⟨hbit, rfl⟩
    · exact ⟨hnbp, Or.inl ⟨Or.inl hbit, by omega, rfl, Or.inl rfl⟩⟩
    · exact ⟨hnbp, Or.inl ⟨Or.inr hbit, by omega, rfl, Or.inr rfl⟩⟩
  · obtain ⟨i, hi, hc⟩ := List.mem_flatMap.mp hc
    have harea := hbound hi
    obtain ⟨hnbp, hc⟩ := mem_repeated.mp hc
    rcases mem_passes.mp hc with ⟨hbit, rfl⟩ | ⟨hbit, rfl⟩
    · exact ⟨hnbp, Or.inr ⟨Or.inl hbit, by omega, rfl, Or.inl rfl⟩⟩
    · exact ⟨hnbp, Or.inr ⟨Or.inr hbit, by omega, rfl, Or.inr rfl⟩⟩

theorem runs_of_mem (hbytes : 2 * (width * height) < 2 ^ 32) (hrows : 8 * width < 2 ^ 32) {c : Call}
    (hc : c ∈ calls width height nbp direction) : Runs width c := by
  have hint : toInt32 width = width := toInt32_of_nat_lt (by omega)
  have hstride : (width : Int).tdiv 4 = (width / 4 : Nat) := by
    rw [Int.tdiv_eq_ediv_of_nonneg (by omega)]
    omega
  have hfour : intMul 4 (width / 4 : Nat) = some (4 * (width / 4 : Nat) : Int) :=
    intMul_eq_some.mpr ⟨by constructor <;> omega, rfl⟩
  obtain ⟨-, ⟨-, -, hblocks, hroutine⟩ | ⟨-, -, hblocks, hroutine⟩⟩ := of_mem_calls hc
  · rcases hroutine with hroutine | hroutine
    · refine ⟨_, .straight, false, c.image, 4 * (width / 4 : Nat), fun coefs s => ?_⟩
      rw [hroutine, hint]
      unfold pixelBiquadVertbS16
      simp only [hstride, hfour, Option.map_some, Int.toNat_natCast]
    · have hlast : intMul ((c.nb4x4Blocks : Int) - 1) (4 * (width / 4 : Nat)) =
          some (((c.nb4x4Blocks : Int) - 1) * (4 * (width / 4 : Nat))) := by
        have hle : c.nb4x4Blocks * (4 * (width / 4)) ≤ height * width :=
          Nat.mul_le_mul (by omega) (by omega)
        have hcomm : height * width = width * height := Nat.mul_comm _ _
        have hcast : (c.nb4x4Blocks : Int) * (4 * (width / 4 : Nat)) =
            (c.nb4x4Blocks * (4 * (width / 4)) : Nat) := by
          push_cast
          rfl
        refine intMul_eq_some.mpr ⟨?_, rfl⟩
        rw [Int.sub_mul, hcast]
        constructor <;> omega
      refine ⟨_, .straight, true, c.image + 4 * ((c.nb4x4Blocks - 1) * (4 * (width / 4 : Nat))),
        -(4 * (width / 4 : Nat)), fun coefs s => ?_⟩
      rw [hroutine, hint]
      unfold pixelBiquadVerbtS16
      simp only [hstride, hfour, Option.bind_some, hlast, Option.map_some, Int.toNat_natCast]
  · rcases hroutine with hroutine | hroutine
    · refine ⟨_, .transposed, false, c.image, 1, fun coefs s => ?_⟩
      rw [hroutine, hint]
      unfold pixelBiquadHorlrS16
      simp only [hstride, hfour, Option.map_some, Int.toNat_natCast]
    · refine ⟨_, .antitransposed, true, c.image + 4 * (c.nb4x4Blocks - 1), -1,
        fun coefs s => ?_⟩
      rw [hroutine, hint]
      unfold pixelBiquadHorrlS16
      simp only [hstride, hfour, Option.map_some, Int.toNat_natCast]

theorem blocks_of_filtered (hbytes : 2 * (width * height) < 2 ^ 32) (hrows : 8 * width < 2 ^ 32)
    (h : Filtered width height nbp direction) :
    ∃ c ∈ calls width height nbp direction, 0 < c.nb4x4Blocks := by
  obtain ⟨hnbp, ⟨hbit, hwidth, hheight⟩ | ⟨hbit, hwidth, hheight⟩⟩ := h
  · have hi : (0 : Int) ∈ counter 0 width 4 :=
      (mem_counter (by omega)).mpr ⟨0, by simp, by omega⟩
    rcases hbit with hbit | hbit
    · exact ⟨_, List.mem_append_left _ (List.mem_flatMap.mpr ⟨0, hi, mem_repeated.mpr
        ⟨hnbp, mem_passes.mpr (Or.inl ⟨hbit, rfl⟩)⟩⟩), Nat.div_pos hheight (by omega)⟩
    · exact ⟨_, List.mem_append_left _ (List.mem_flatMap.mpr ⟨0, hi, mem_repeated.mpr
        ⟨hnbp, mem_passes.mpr (Or.inr ⟨hbit, rfl⟩)⟩⟩), Nat.div_pos hheight (by omega)⟩
  · have hpos : 0 < width * height := Nat.mul_pos (by omega) hheight
    have harea : u32 (width * height) = width * height := u32_eq_self (by omega)
    have hfour : u32 (4 * width) = 4 * width := u32_eq_self (by omega)
    have hi : (0 : Int) ∈ counter 0 (u32 (width * height)) (u32 (4 * width)) := by
      rw [harea, hfour]
      exact (mem_counter (by omega)).mpr ⟨0, by simp, by omega⟩
    rcases hbit with hbit | hbit
    · exact ⟨_, List.mem_append_right _ (List.mem_flatMap.mpr ⟨0, hi, mem_repeated.mpr
        ⟨hnbp, mem_passes.mpr (Or.inl ⟨hbit, rfl⟩)⟩⟩), Nat.div_pos hwidth (by omega)⟩
    · exact ⟨_, List.mem_append_right _ (List.mem_flatMap.mpr ⟨0, hi, mem_repeated.mpr
        ⟨hnbp, mem_passes.mpr (Or.inr ⟨hbit, rfl⟩)⟩⟩), Nat.div_pos hwidth (by omega)⟩

theorem blocks_of_not_filtered (h : ¬Filtered width height nbp direction) {c : Call}
    (hc : c ∈ calls width height nbp direction) : c.nb4x4Blocks = 0 := by
  obtain ⟨hnbp, ⟨hbit, hwidth, hblocks, -⟩ | ⟨hbit, harea, hblocks, -⟩⟩ := of_mem_calls hc
  · by_contra hne
    exact h ⟨hnbp, Or.inl ⟨hbit, hwidth, by omega⟩⟩
  · by_contra hne
    refine h ⟨hnbp, Or.inr ⟨hbit, by omega, Nat.pos_of_ne_zero fun hheight => ?_⟩⟩
    rw [hheight, Nat.mul_zero] at harea
    exact Nat.lt_irrefl 0 harea

theorem idle_calls {l : List Call} (hruns : ∀ c ∈ l, Runs width c)
    (hidle : ∀ c ∈ l, c.nb4x4Blocks = 0) (s : Pixels × Bq) (coef : Nat → ℚ) :
    l.foldlM (runCall width) s = some s ∧ l.foldlM (freshCall coef width) s.1 = some s.1 := by
  induction l with
  | nil => exact ⟨rfl, rfl⟩
  | cons c l ih =>
      obtain ⟨F, -, backwards, p, step, hrun⟩ := hruns c List.mem_cons_self
      have hnone := hidle c List.mem_cons_self
      have hsame : runCall width s c = some s := by
        unfold runCall
        rw [hrun, hnone]
        rfl
      have hfresh : freshCall coef width s.1 c = some s.1 := by
        unfold freshCall
        rw [hrun, hnone]
        rfl
      rw [List.foldlM_cons, List.foldlM_cons, hsame, hfresh]
      exact ih (fun c hc => hruns c (List.mem_cons_of_mem _ hc))
        fun c hc => hidle c (List.mem_cons_of_mem _ hc)

theorem black_calls {l : List Call} (hruns : ∀ c ∈ l, Runs width c) {d : Bq}
    (hd : d.u = blackState) : l.foldlM (runCall width) (fun _ => 0, d) = some (fun _ => 0, d) := by
  induction l with
  | nil => rfl
  | cons c l ih =>
      obtain ⟨F, hF, backwards, p, step, hrun⟩ := hruns c List.mem_cons_self
      have hsame : runCall width (fun _ => 0, d) c = some (fun _ => 0, d) := by
        unfold runCall
        rw [hrun, hd, black_strip hF, ← hd]
        rfl
      rw [List.foldlM_cons, hsame]
      exact ih fun c hc => hruns c (List.mem_cons_of_mem _ hc)

theorem setvec_whiteStart : (⟨setvec (scaled whiteStart 1), setvec (scaled whiteStart 2),
      setvec (scaled whiteStart 3), setvec (scaled whiteStart 4), setvec (scaled whiteStart 5)⟩ :
        BiquadCoef M64) = whiteCoefs ∧
    White ⟨setvec (whiteStart 6), setvec (whiteStart 7)⟩ := by
  have hone : setvec 1 = plain 0x7fff#16 := by
    unfold setvec
    rw [float2fixed_one]
    rfl
  have hzero : setvec 0 = plain 0#16 := by
    unfold setvec
    rw [float2fixed_zero]
    rfl
  have h1 : whiteStart 1 = 1 := rfl
  have h2 : ∀ k, k ∈ [2, 3, 4, 5, 7] → whiteStart k = 0 := by
    intro k hk
    fin_cases hk <;> rfl
  constructor
  · simp only [scaled_whiteStart, h1, h2 2 (by decide), h2 3 (by decide), h2 4 (by decide),
      h2 5 (by decide), toFloat_one, toFloat_zero, hone, hzero]
    rfl
  · have h6 : whiteStart 6 = 1 := rfl
    rw [h6, h2 7 (by decide), hone, hzero]
    exact ⟨_, Or.inl rfl, rfl⟩

theorem fresh_runs {l : List Call} (hruns : ∀ c ∈ l, Runs width c) (coef : Nat → ℚ)
    (image : Pixels) : ∃ image', l.foldlM (freshCall coef width) image = some image' := by
  induction l generalizing image with
  | nil => exact ⟨image, rfl⟩
  | cons c l ih =>
      obtain ⟨F, -, backwards, p, step, hrun⟩ := hruns c List.mem_cons_self
      have hcall : ∃ image₁, freshCall coef width image c = some image₁ := by
        unfold freshCall
        rw [hrun]
        exact ⟨_, rfl⟩
      obtain ⟨image₁, hcall⟩ := hcall
      rw [List.foldlM_cons, hcall]
      exact ih (fun c hc => hruns c (List.mem_cons_of_mem _ hc)) image₁

/-- Strips that begin with white leave a white pixel, if one of them has blocks. -/
theorem white_calls {l : List Call} (hruns : ∀ c ∈ l, Runs width c)
    (hblocks : ∃ c ∈ l, 0 < c.nb4x4Blocks) (image : Pixels) :
    ∃ image' a, l.foldlM (freshCall whiteStart width) image = some image' ∧
      image' a = 0x7fff#16 := by
  -- the last strip that has blocks decides
  induction l using List.reverseRecOn with
  | nil =>
      obtain ⟨c, hc, -⟩ := hblocks
      exact absurd hc List.not_mem_nil
  | append_singleton l c ih =>
      have hinit : ∀ c ∈ l, Runs width c := fun c hc => hruns c (List.mem_append_left _ hc)
      obtain ⟨F, hF, backwards, p, step, hrun⟩ := hruns c (by simp)
      obtain ⟨hcoefs, hwhite⟩ := setvec_whiteStart
      by_cases hc : 0 < c.nb4x4Blocks
      · obtain ⟨image₁, himage₁⟩ := fresh_runs hinit whiteStart image
        obtain ⟨-, hpixel⟩ := white_strip hF backwards p (width / 4 : Nat) step c.nb4x4Blocks
          (image₁, ⟨setvec (whiteStart 6), setvec (whiteStart 7)⟩) hwhite
        obtain ⟨a, ha⟩ := hpixel hc
        refine ⟨_, a, ?_, ha⟩
        rw [List.foldlM_append, himage₁]
        show freshCall whiteStart width image₁ c >>= pure = _
        rw [bind_pure]
        unfold freshCall
        rw [hcoefs, hrun]
        rfl
      · have hother : ∃ c ∈ l, 0 < c.nb4x4Blocks := by
          obtain ⟨c', hc', hpos⟩ := hblocks
          rcases List.mem_append.mp hc' with hc' | hc'
          · exact ⟨c', hc', hpos⟩
          · rw [List.mem_singleton.mp hc'] at hpos
            exact absurd hpos hc
        obtain ⟨image', a, himage', ha⟩ := ih hinit hother
        refine ⟨image', a, ?_, ha⟩
        have hidle := (idle_calls (l := [c]) (fun c' hc' => hruns c' (by
          rw [List.mem_singleton.mp hc']
          simp)) (fun c' hc' => by
          rw [List.mem_singleton.mp hc']
          omega) (image', ⟨whiteCoefs, blackState, blackState, 0, 0⟩) whiteStart).2
        rw [List.foldlM_append, himage']
        exact hidle

/-- Lines begin with the state that the setters are given if nothing is filtered. -/
theorem beginsFresh_iff (hbytes : 2 * (width * height) < 2 ^ 32) (hrows : 8 * width < 2 ^ 32) :
    BeginsFresh width height nbp direction ↔ ¬Filtered width height nbp direction := by
  have hruns : ∀ c ∈ calls width height nbp direction, Runs width c :=
    fun c hc => runs_of_mem hbytes hrows hc
  constructor
  · intro hfresh hfiltered
    obtain ⟨image', a, himage', ha⟩ := white_calls hruns
      (blocks_of_filtered hbytes hrows hfiltered) fun _ => 0
    have hrun := hfresh whiteStart (fun _ => 0) ⟨whiteCoefs, blackState, blackState, 0, 0⟩
    rw [himage'] at hrun
    unfold pdpImageprocBqProcess at hrun
    have hblack := black_calls hruns (d := setters ⟨whiteCoefs, blackState, blackState, 0, 0⟩
      whiteStart nbp direction) rfl
    change (List.foldlM (runCall width) _ (calls width height nbp direction)).map Prod.fst = _
      at hrun
    rw [hblack] at hrun
    have hpixel : (0 : S16) = image' a := congrFun (Option.some.inj hrun) a
    rw [ha] at hpixel
    exact absurd hpixel (by decide)
  · intro hidle coef image d
    obtain ⟨hsame, hsame'⟩ := idle_calls hruns (fun c hc => blocks_of_not_filtered hidle hc)
      (image, setters d coef nbp direction) coef
    have hprocess : pdpImageprocBqProcess (setters d coef nbp direction) width height image =
      some (image, setters d coef nbp direction) := hsame
    rw [hprocess, hsame']
    rfl

end Calls

end GccMmx

/-- What a filtered image depends on, in both versions: its lines begin with the state that
the setters are given exactly if nothing is filtered. -/
theorem filtered_lines_fresh_iff {width height : Nat} (hbytes : 2 * (width * height) < 2 ^ 32) :
    (∀ nbp direction : Portable.S32, Portable.BeginsFresh width height nbp direction ↔
      ¬Portable.Filtered width height nbp.toNat direction.toNat) ∧
    (8 * width < 2 ^ 32 → ∀ nbp direction : Nat, GccMmx.BeginsFresh width height nbp direction ↔
      ¬GccMmx.Filtered width height nbp direction) :=
  ⟨fun _ _ => Portable.beginsFresh_iff hbytes, fun hrows _ _ =>
    GccMmx.beginsFresh_iff hbytes hrows⟩

/-- One pixel, in no direction. -/
theorem filtered_lines_fresh_idle : Portable.BeginsFresh 1 1 1 0 :=
  ((filtered_lines_fresh_iff (by decide)).1 1 0).mpr (by
    rintro ⟨-, -, -, bit, -, hset⟩
    simp at hset)

/-- One pixel, and one block, from the top to the bottom. -/
theorem filtered_lines_stale : ¬Portable.BeginsFresh 1 1 1 1 ∧ ¬GccMmx.BeginsFresh 4 4 1 1 := by
  constructor
  · rw [Portable.beginsFresh_iff (by decide)]
    exact not_not_intro ⟨by decide, by decide, by decide, 0, by decide, by decide⟩
  · rw [GccMmx.beginsFresh_iff (by decide) (by decide)]
    exact not_not_intro ⟨by decide, Or.inl ⟨Or.inl (by decide), by decide, by decide⟩⟩

end PureDataPacket
