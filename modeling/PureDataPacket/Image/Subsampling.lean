/-
# `PureDataPacket.Image.Subsampling` — what the conversions from packed pixels store

`llconv_rgb2yvu_planar16sub_indexed` and `llconv_rgb2yvu_planar8sub` work on blocks of 2x2
pixels.  Every sample of their target is stored once: a luma sample for each pixel, and for
each block a sample of both chroma planes.

| | |
| :-- | :-- |
| `rgb2yvuPlanar8sub_eq` | straight to 8 bits is the same as through 16 bits |
| `chroma_mean_iff` | when a chroma sample is the mean of its block |

The chroma of the third pixel is assigned where it should be added: the upper half of a block
leaves no trace.
-/
import Mathlib.Algebra.Group.End
import Mathlib.Data.Fintype.Perm
import Mathlib.Tactic.FinCases
import PureDataPacket.Type.Bounds
import PureDataPacket.Lib.Elements

namespace PureDataPacket

/-! ## The other packed formats -/

/-- `llconv_rgba2yvu_planar16sub`. -/
def llconvRgba2yvuPlanar16sub (w h : Int) : Option (List Step) :=
  llconvRgb2yvuPlanar16subIndexed ⟨0, 1, 2, 4⟩ w h

/-- `llconv_bgr2yvu_planar16sub`. -/
def llconvBgr2yvuPlanar16sub (w h : Int) : Option (List Step) :=
  llconvRgb2yvuPlanar16subIndexed ⟨2, 1, 0, 3⟩ w h

/-- `llconv_bgra2yvu_planar16sub`. -/
def llconvBgra2yvuPlanar16sub (w h : Int) : Option (List Step) :=
  llconvRgb2yvuPlanar16subIndexed ⟨2, 1, 0, 4⟩ w h

/-- The components of a pixel are inside it. -/
structure RgbLayout.Proper (p : RgbLayout) : Prop where
  ir : 0 ≤ p.ir ∧ p.ir < p.stride
  ig : 0 ≤ p.ig ∧ p.ig < p.stride
  ib : 0 ≤ p.ib ∧ p.ib < p.stride

/-- What `f` makes of the `q`-th pixel. -/
def RgbLayout.sample (p : RgbLayout) (src : List UInt8) (f : Int → Int → Int → Int) (q : Int) :
    Int :=
  f (u8.load src (p.stride * q + p.ir)) (u8.load src (p.stride * q + p.ig))
    (u8.load src (p.stride * q + p.ib))

/-! ## Blocks -/

/-- The dimensions for which `int` holds the sizes that are computed. -/
structure YvuDims (p : RgbLayout) (a b : Nat) : Prop where
  size : IsInt (2 * a * (2 * b) : Int)
  loffset : IsInt (2 * a * p.stride)

/-- The body of the loops, for block row `row` and block column `k`. -/
def yvuBlock (target : Format) (luma chroma : Int → Int) (p : RgbLayout) (a b row k : Nat) :
    List Step :=
  llconvYvuBlock target luma chroma p (2 * a) (2 * a * (2 * b)) (2 * a * 2 * row) (2 * k)

def blockPixel (a row k : Nat) (t : Fin 4) : Nat := 4 * (a * row) + 2 * k + t % 2 + 2 * a * (t / 2)

/-- The chroma planes. -/
inductive Chroma where
  | v
  | u
deriving DecidableEq

def Chroma.ofRgb : Chroma → Int → Int → Int → Int
  | .v => rgb2v
  | .u => rgb2u

/-- The sample of a block in a chroma plane. -/
def Chroma.index (a b row k : Nat) : Chroma → Nat
  | .v => 4 * (a * b) + (a * row + k)
  | .u => 5 * (a * b) + (a * row + k)

section Run

variable {target : Format} {luma chroma : Int → Int} {p : RgbLayout} {a b row k : Nat}
  {src dst out : List UInt8} {l : List Step}

theorem index_yvuBlock : (yvuBlock target luma chroma p a b row k).map Step.index =
    (blockIndices a b row k).map fun i : Nat => (i : Int) := by
  have hsize : (2 * a * (2 * b) : Int) = 4 * (a * b) := by ring
  have hrow : (2 * a * 2 * row : Int) = 4 * (a * row) := by ring
  simp only [yvuBlock, llconvYvuBlock, llconvLuma, llconvChroma, blockIndices, List.map_cons,
    List.map_nil, List.cons.injEq, and_true, hsize, hrow, Nat.cast_add, Nat.cast_mul,
    Nat.cast_ofNat, Nat.cast_one]
  omega

theorem target_yvuBlock {st : Step} (hst : st ∈ yvuBlock target luma chroma p a b row k) :
    st.target = target := by
  simp only [yvuBlock, llconvYvuBlock, List.mem_cons, List.not_mem_nil, or_false] at hst
  rcases hst with rfl | rfl | rfl | rfl | rfl | rfl <;> rfl

theorem llconvRgb2yvu_eq (hdims : YvuDims p a b) :
    llconvRgb2yvu target luma chroma p (2 * a) (2 * b) =
      some (stepsFor b fun row => stepsFor a (yvuBlock target luma chroma p a b row)) := by
  have hsize : intMul (2 * a) (2 * b) = some _ := intMul_eq_some.mpr ⟨hdims.size, rfl⟩
  have hloffset : intMul (2 * a) p.stride = some _ := intMul_eq_some.mpr ⟨hdims.loffset, rfl⟩
  unfold llconvRgb2yvu
  simp only [hsize, hloffset, Option.bind_eq_bind, Option.bind_some]
  rcases Nat.eq_zero_or_pos a with rfl | ha
  · have hnone : ∀ row, stepsFor 0 (yvuBlock target luma chroma p 0 b row) = [] := fun _ => rfl
    have hempty : (stepsFor b fun row => stepsFor 0 (yvuBlock target luma chroma p 0 b row)) = [] :=
      List.flatMap_eq_nil_iff.mpr fun row _ => hnone row
    rw [hempty]
    norm_num [forRows, iterations, stepsFor]
  · have hrows : iterations (2 * a * (2 * b)) (2 * a * 2) = b := by
      have := @iterations_of_mul 0 (2 * a * 2) (by omega) b
      rwa [show (0 + 2 * a * 2 * b - 0 : Int) = 2 * a * (2 * b) by ring] at this
    have hcols : iterations (2 * a) 2 = a := by
      have := @iterations_of_mul 0 2 (by omega) a
      rwa [Int.zero_add, Int.sub_zero] at this
    unfold forRows
    rw [if_neg (by omega), hrows]
    simp only [stepsUpTo, hcols]
    rfl

theorem once_yvu : Once target (6 * (a * b))
    (stepsFor b fun row => stepsFor a (yvuBlock target luma chroma p a b row)) :=
  once_blocks (fun _ _ _ => target_yvuBlock) fun _ _ => .of_eq index_yvuBlock

/-- What is in the samples of a block. -/
structure BlockOf (target : Format) (luma chroma : Int → Int) (p : RgbLayout)
    (src out : List UInt8) (a b row k : Nat) : Prop where
  luma : ∀ t, target.load out (blockPixel a row k t) =
    target.wrap (luma (p.sample src rgb2y (blockPixel a row k t)))
  chroma : ∀ c : Chroma, target.load out (c.index a b row k) =
    target.wrap (chroma (p.sample src c.ofRgb (blockPixel a row k 2) +
      p.sample src c.ofRgb (blockPixel a row k 3)))

theorem yvuBlock_eq : yvuBlock target luma chroma p a b row k =
    [llconvLuma target luma p (p.stride * blockPixel a row k 0) (blockPixel a row k 0),
      llconvLuma target luma p (p.stride * blockPixel a row k 1) (blockPixel a row k 1),
      llconvLuma target luma p (p.stride * blockPixel a row k 2) (blockPixel a row k 2),
      llconvLuma target luma p (p.stride * blockPixel a row k 3) (blockPixel a row k 3),
      llconvChroma target chroma rgb2u p (p.stride * blockPixel a row k 2)
        (Chroma.u.index a b row k),
      llconvChroma target chroma rgb2v p (p.stride * blockPixel a row k 2)
        (Chroma.v.index a b row k)] := by
  have hsize : (2 * a * (2 * b) : Int) = 4 * (a * b) := by ring
  have hrow : (2 * a * 2 * row : Int) = 4 * (a * row) := by ring
  have h0 : (blockPixel a row k 0 : Int) = 4 * (a * row) + 2 * k := rfl
  have h1 : (blockPixel a row k 1 : Int) = 4 * (a * row) + 2 * k + 1 := rfl
  have h2 : (blockPixel a row k 2 : Int) = 4 * (a * row) + 2 * k + 2 * a := by
    show ((4 * (a * row) + 2 * k + 0 + 2 * a * 1 : Nat) : Int) = _
    push_cast
    ring
  have h3 : (blockPixel a row k 3 : Int) = 4 * (a * row) + 2 * k + 1 + 2 * a := by
    show ((4 * (a * row) + 2 * k + 1 + 2 * a * 1 : Nat) : Int) = _
    push_cast
    ring
  simp only [yvuBlock, llconvYvuBlock, hsize, hrow, h0, h1, h2, h3, Chroma.index, Nat.cast_add,
    Nat.cast_mul, Nat.cast_ofNat]
  refine List.cons_eq_cons.mpr ⟨congrArg₂ _ (by ring) (by ring), ?_⟩
  refine List.cons_eq_cons.mpr ⟨congrArg₂ _ (by ring) (by ring), ?_⟩
  refine List.cons_eq_cons.mpr ⟨congrArg₂ _ (by ring) (by ring), ?_⟩
  refine List.cons_eq_cons.mpr ⟨congrArg₂ _ (by ring) (by ring), ?_⟩
  refine List.cons_eq_cons.mpr ⟨congrArg₂ _ (by ring) (by omega), ?_⟩
  exact List.cons_eq_cons.mpr ⟨congrArg₂ _ (by ring) (by omega), rfl⟩

theorem next_blockPixel {stride : Int} :
    stride * blockPixel a row k 2 + stride = stride * blockPixel a row k 3 := by
  have h3 : (blockPixel a row k 3 : Int) = blockPixel a row k 2 + 1 := by
    simp only [blockPixel]
    push_cast
    norm_num
    ring
  rw [h3]
  ring

theorem blockOf_of_run (hrow : row < b) (hk : k < a)
    (hrun : runSteps src (stepsFor b fun row => stepsFor a (yvuBlock target luma chroma p a b row))
      dst = some out) : BlockOf target luma chroma p src out a b row k := by
  have hload : ∀ st ∈ yvuBlock target luma chroma p a b row k,
      target.load out st.index = target.wrap (st.value (st.loads.map (st.source.load src))) :=
    fun st hst => once_yvu.load hrun (mem_stepsFor.mpr ⟨row, hrow, mem_stepsFor.mpr ⟨k, hk, hst⟩⟩)
  rw [yvuBlock_eq] at hload
  simp only [List.forall_mem_cons, List.not_mem_nil, false_imp_iff, implies_true, and_true] at hload
  obtain ⟨hy0, hy1, hy2, hy3, hu, hv⟩ := hload
  have hnext : p.stride * blockPixel a row k 2 + p.stride = p.stride * blockPixel a row k 3 :=
    next_blockPixel
  simp only [llconvChroma, RgbLayout.at, hnext] at hu hv
  constructor
  · exact Fin.forall_fin_succ.mpr
      ⟨hy0, Fin.forall_fin_succ.mpr ⟨hy1, Fin.forall_fin_two.mpr ⟨hy2, hy3⟩⟩⟩
  · intro c
    cases c with
    | v => exact hv
    | u => exact hu

/-! ## Bounds -/

theorem blockPixel_lt (hrow : row < b) (hk : k < a) (t : Fin 4) :
    blockPixel a row k t < 4 * (a * b) := by
  have hle := Nat.mul_le_mul_left a (Nat.succ_le_of_lt hrow)
  rw [Nat.mul_succ] at hle
  unfold blockPixel
  have ht : (t : Nat) / 2 = 0 ∨ (t : Nat) / 2 = 1 := by omega
  rcases ht with h | h
  · rw [h]
    omega
  · rw [h]
    omega

theorem Chroma.index_lt (hrow : row < b) (hk : k < a) (c : Chroma) :
    c.index a b row k < 6 * (a * b) := by
  have hlt := add_mul_lt hrow hk
  cases c with
  | v =>
      show 4 * (a * b) + (a * row + k) < 6 * (a * b)
      omega
  | u =>
      show 5 * (a * b) + (a * row + k) < 6 * (a * b)
      omega

theorem component_inside {stride i : Int} {q n : Nat} (hi : 0 ≤ i ∧ i < stride) (hq : q < n) :
    0 ≤ stride * q + i ∧ stride * q + i < stride * n := by
  have hle : stride * (q + 1) ≤ stride * n :=
    Int.mul_le_mul_of_nonneg_left (by omega) (by omega)
  have h0 : 0 ≤ stride * q := Int.mul_nonneg (by omega) (by omega)
  rw [Int.mul_add, Int.mul_one] at hle
  omega

/-- The routines stay inside an image and a target of its dimensions. -/
theorem fits_yvu {m : Nat} (hp : p.Proper)
    (hsrc : (src.length : Int) = p.stride * (4 * (a * b) : Nat))
    (htarget : ∀ i < 6 * (a * b), target.Within m i) :
    Fits (stepsFor b fun row => stepsFor a (yvuBlock target luma chroma p a b row))
      src.length m := by
  simp only [fits_stepsFor]
  intro row hrow k hk
  have hpixel : ∀ t, ∀ i ∈ p.at (p.stride * blockPixel a row k t), u8.Within src.length i := by
    intro t
    have hq := blockPixel_lt hrow hk t
    have hr := component_inside hp.ir hq
    have hg := component_inside hp.ig hq
    have hb := component_inside hp.ib hq
    simp only [RgbLayout.at, List.forall_mem_cons, within_u8, hsrc, List.not_mem_nil,
      false_imp_iff, implies_true, and_true]
    exact ⟨hr, hg, hb⟩
  have hnext : p.stride * blockPixel a row k 2 + p.stride = p.stride * blockPixel a row k 3 :=
    next_blockPixel
  have hluma : ∀ t, (llconvLuma target luma p (p.stride * blockPixel a row k t)
      (blockPixel a row k t)).Fits src.length m := fun t =>
    ⟨hpixel t, htarget _ (Nat.lt_of_lt_of_le (blockPixel_lt hrow hk t) (by omega))⟩
  have hchroma : ∀ c : Chroma, (llconvChroma target chroma c.ofRgb p
      (p.stride * blockPixel a row k 2) (c.index a b row k)).Fits src.length m := by
    intro c
    refine ⟨?_, htarget _ (c.index_lt hrow hk)⟩
    simp only [llconvChroma, hnext]
    exact List.forall_mem_append.mpr ⟨hpixel 2, hpixel 3⟩
  rw [yvuBlock_eq]
  simp only [fits_cons, fits_nil, and_true]
  exact ⟨hluma 0, hluma 1, hluma 2, hluma 3, hchroma .u, hchroma .v⟩

end Run

/-! ## What the pixels are worth -/

section Range

variable {r g b : Int}

/-- `rgb2y`, evaluated. -/
theorem rgb2y_eq : rgb2y r g b = 65 * r + 129 * g + 25 * b + 4096 := rfl

theorem rgb2v_eq : rgb2v r g b = 112 * r - 94 * g - 18 * b := rfl

theorem rgb2u_eq : rgb2u r g b = -(37 * r) - 74 * g + 112 * b := rfl

variable {p : RgbLayout} {src : List UInt8} {q : Int}

theorem sample_y_bounds : 0 ≤ p.sample src rgb2y q ∧ p.sample src rgb2y q < 2 ^ 16 := by
  have hr := u8_load_bounds src (p.stride * q + p.ir)
  have hg := u8_load_bounds src (p.stride * q + p.ig)
  have hb := u8_load_bounds src (p.stride * q + p.ib)
  unfold RgbLayout.sample
  rw [rgb2y_eq]
  omega

theorem sample_chroma_bounds (c : Chroma) :
    -28560 ≤ p.sample src c.ofRgb q ∧ p.sample src c.ofRgb q ≤ 28560 := by
  have hr := u8_load_bounds src (p.stride * q + p.ir)
  have hg := u8_load_bounds src (p.stride * q + p.ig)
  have hb := u8_load_bounds src (p.stride * q + p.ib)
  unfold RgbLayout.sample
  cases c with
  | v =>
      show -28560 ≤ rgb2v _ _ _ ∧ rgb2v _ _ _ ≤ 28560
      rw [rgb2v_eq]
      omega
  | u =>
      show -28560 ≤ rgb2u _ _ _ ∧ rgb2u _ _ _ ≤ 28560
      rw [rgb2u_eq]
      omega

variable {x : Int}

/-- Luma, stored in 8 bits, and stored in 16 bits and then packed. -/
theorem luma_paths (h0 : 0 ≤ x) (h1 : x < 2 ^ 16) :
    s16.wrap (clamp16 (x / 2)) = x / 2 ∧ clamp8 (x / 2 / 2 ^ 7) = clamp8 (x / 2 ^ 8) := by
  have hclamp : clamp16 (x / 2) = x / 2 := by
    unfold clamp16
    rw [if_neg (by omega), if_neg (by omega)]
  have hshift : x / 2 / 2 ^ 7 = x / 2 ^ 8 := by omega
  rw [hclamp, hshift]
  exact ⟨Format.wrap_s16_of_bounds (by omega) (by omega), rfl⟩

/-- Chroma that 16 bits hold is stored as it is. -/
theorem chroma_s16 (h0 : -57120 ≤ x) (h1 : x ≤ 57120) :
    s16.wrap (clamp16 (x / 2)) = x / 2 := by
  have hclamp : clamp16 (x / 2) = x / 2 := by
    unfold clamp16
    rw [if_neg (by omega), if_neg (by omega)]
  rw [hclamp]
  exact Format.wrap_s16_of_bounds (by omega) (by omega)

theorem chroma_u8 (h0 : -57120 ≤ x) (h1 : x ≤ 57120) :
    u8.wrap (clamp8 (x / 2 ^ 9 + 128)) = x / 2 ^ 9 + 128 := by
  have hclamp : clamp8 (x / 2 ^ 9 + 128) = x / 2 ^ 9 + 128 := by
    unfold clamp8
    rw [if_neg (by omega), if_neg (by omega)]
  rw [hclamp]
  exact Format.wrap_u8_of_bounds (by omega) (by omega)

theorem chroma_paths (h0 : -57120 ≤ x) (h1 : x ≤ 57120) :
    u8.wrap ((s16.wrap (clamp16 (x / 2)) + 2 ^ 15) % 2 ^ 16 / 2 ^ 8) =
      u8.wrap (clamp8 (x / 2 ^ 9 + 128)) := by
  have hshift : (x / 2 + 2 ^ 15) % 2 ^ 16 / 2 ^ 8 = x / 2 ^ 9 + 128 := by omega
  rw [chroma_s16 h0 h1, chroma_u8 h0 h1, hshift]
  exact Format.wrap_u8_of_bounds (by omega) (by omega)

end Range

/-! ## Straight to 8 bits -/

section Paths

variable {a b n : Nat} {src dst out : List UInt8} {i : Nat}

theorem once_llconvYvuPlanarS16u8 : Once u8 (n + n / 2) (llconvYvuPlanarS16u8 n) := once_planar

/-- What `llconv_yvu_planar_s16u8` leaves of the luma plane. -/
theorem packed_luma (hrun : runSteps src (llconvYvuPlanarS16u8 n) dst = some out) (hi : i < n) :
    u8.load out i = u8.wrap (clamp8 (s16.load src i / 2 ^ 7)) :=
  once_llconvYvuPlanarS16u8.load_map hrun (fun _ hst => List.mem_append_left _ hst) hi

theorem packed_chroma (hrun : runSteps src (llconvYvuPlanarS16u8 n) dst = some out) (hn : n ≤ i)
    (hi : i < n + n / 2) :
    u8.load out i = u8.wrap ((s16.load src i + 2 ^ 15) % 2 ^ 16 / 2 ^ 8) := by
  have h := once_llconvYvuPlanarS16u8.load_shift hrun
    (fun _ hst => List.mem_append_right _ hst) (show i - n < n / 2 by omega)
  have hindex : (n : Int) + (i - n : Nat) = i := by omega
  rw [hindex] at h
  exact h

theorem load_paths {row k : Nat} {p : RgbLayout} {out8 out16 packed : List UInt8}
    (h8 : BlockOf u8 (fun y => clamp8 (y / 2 ^ 8)) (fun c => clamp8 (c / 2 ^ 9 + 128)) p src out8
      a b row k)
    (h16 : BlockOf s16 (fun y => clamp16 (y / 2)) (fun c => clamp16 (c / 2)) p src out16 a b row k)
    (hpacked : runSteps out16 (llconvYvuPlanarS16u8 (4 * (a * b))) dst = some packed)
    (hrow : row < b) (hk : k < a) (hi : i ∈ blockIndices a b row k) :
    u8.load out8 i = u8.load packed i := by
  have hluma : ∀ t,
      u8.load out8 (blockPixel a row k t) = u8.load packed (blockPixel a row k t) := by
    intro t
    obtain ⟨h0, h1⟩ := @sample_y_bounds p src (blockPixel a row k t)
    obtain ⟨hwrap, hclamp⟩ := luma_paths h0 h1
    rw [h8.luma t, packed_luma hpacked (blockPixel_lt hrow hk t), h16.luma t, hwrap, hclamp]
  have hchroma : ∀ c : Chroma,
      u8.load out8 (c.index a b row k) = u8.load packed (c.index a b row k) := by
    intro c
    have h2 := @sample_chroma_bounds p src (blockPixel a row k 2) c
    have h3 := @sample_chroma_bounds p src (blockPixel a row k 3) c
    have hplane : 4 * (a * b) ≤ c.index a b row k := by
      cases c with
      | v => exact Nat.le_add_right _ _
      | u => exact (by omega : 4 * (a * b) ≤ 5 * (a * b)).trans (Nat.le_add_right _ _)
    have hlt := c.index_lt hrow hk
    rw [h8.chroma c, packed_chroma hpacked hplane (by omega), h16.chroma c,
      chroma_paths (by omega) (by omega)]
  have hlist : blockIndices a b row k = [blockPixel a row k 0, blockPixel a row k 1,
      blockPixel a row k 2, blockPixel a row k 3, Chroma.u.index a b row k,
      Chroma.v.index a b row k] := by
    simp only [blockIndices, blockPixel, Chroma.index]
    norm_num
    omega
  rw [hlist] at hi
  simp only [List.mem_cons, List.not_mem_nil, or_false] at hi
  rcases hi with rfl | rfl | rfl | rfl | rfl | rfl
  · exact hluma 0
  · exact hluma 1
  · exact hluma 2
  · exact hluma 3
  · exact hchroma .u
  · exact hchroma .v

/-- The layout of `llconv_rgb2yvu_planar8sub`. -/
def rgbLayout : RgbLayout := ⟨0, 1, 2, 3⟩

theorem proper_rgbLayout : rgbLayout.Proper := ⟨by decide, by decide, by decide⟩

/-- Converting straight to 8 bits stores the same bytes as converting to 16 bits and packing
the result, whatever was in the targets. -/
theorem rgb2yvuPlanar8sub_eq {dst8 dst16 : List UInt8} (hdims : YvuDims rgbLayout a b)
    (hsrc : src.length = 3 * (2 * a * (2 * b))) (h8 : dst8.length = 6 * (a * b))
    (h16 : dst16.length = 2 * (6 * (a * b))) (hdst : dst.length = 6 * (a * b)) :
    ∃ l8 l16 out8 out16, llconvRgb2yvuPlanar8sub (2 * a) (2 * b) = some l8 ∧
      llconvRgb2yvuPlanar16sub (2 * a) (2 * b) = some l16 ∧
      runSteps src l8 dst8 = some out8 ∧ runSteps src l16 dst16 = some out16 ∧
      runSteps out16 (llconvYvuPlanarS16u8 (2 * a * (2 * b))) dst = some out8 := by
  have hsize : 2 * a * (2 * b) = 4 * (a * b) := by ring
  have hlen : (src.length : Int) = rgbLayout.stride * (4 * (a * b) : Nat) := by
    rw [hsrc, hsize]
    exact Nat.cast_mul 3 (4 * (a * b))
  obtain ⟨out8, hrun8⟩ := runSteps_isSome_iff.mpr (@fits_yvu u8
    (fun y => clamp8 (y / 2 ^ 8)) (fun c => clamp8 (c / 2 ^ 9 + 128)) _ a b _ dst8.length
    proper_rgbLayout hlen fun i hi => within_u8.mpr (by omega))
  obtain ⟨out16, hrun16⟩ := runSteps_isSome_iff.mpr (@fits_yvu s16
    (fun y => clamp16 (y / 2)) (fun c => clamp16 (c / 2)) _ a b _ dst16.length
    proper_rgbLayout hlen fun i hi => within_s16.mpr (by omega))
  have hlen8 := length_runSteps hrun8
  have hlen16 := length_runSteps hrun16
  obtain ⟨packed, hpacked⟩ := runSteps_isSome_iff.mpr
    (@fits_llconvYvuPlanarS16u8 (4 * (a * b)) out16.length dst.length |>.mpr (by omega))
  refine ⟨_, _, out8, out16, llconvRgb2yvu_eq hdims, llconvRgb2yvu_eq hdims, hrun8, hrun16, ?_⟩
  have hlenp := length_runSteps hpacked
  have hsame : out8 = packed := eq_of_load_u8 (by omega) fun i hi => by
    obtain ⟨row, hrow, k, hk, hmem⟩ := exists_blockIndex (show i < 6 * (a * b) by omega)
    exact load_paths (blockOf_of_run hrow hk hrun8) (blockOf_of_run hrow hk hrun16) hpacked hrow
      hk hmem
  rw [hsize, hpacked, hsame]

/-- A picture of one block. -/
theorem rgb2yvuPlanar8sub_eq_block : ∃ l8 l16 out8 out16,
    llconvRgb2yvuPlanar8sub (2 * (1 : Nat)) (2 * (1 : Nat)) = some l8 ∧
      llconvRgb2yvuPlanar16sub (2 * (1 : Nat)) (2 * (1 : Nat)) = some l16 ∧
      runSteps [255, 0, 0, 0, 255, 0, 0, 0, 255, 9, 9, 9] l8 (List.replicate 6 0) = some out8 ∧
      runSteps [255, 0, 0, 0, 255, 0, 0, 0, 255, 9, 9, 9] l16 (List.replicate 12 1) = some out16 ∧
      runSteps out16 (llconvYvuPlanarS16u8 (2 * 1 * (2 * 1))) (List.replicate 6 2) = some out8 :=
  rgb2yvuPlanar8sub_eq ⟨by decide, by decide⟩ rfl rfl rfl rfl

end Paths

/-! ## The mean of a block -/

/-- The pixel that comes to the place of pixel `q` when those of a block are permuted. -/
def permutePixel (a row k : Nat) (σ : Equiv.Perm (Fin 4)) (q : Nat) : Nat :=
  match (List.finRange 4).find? fun t => blockPixel a row k t = q with
  | some t => blockPixel a row k (σ t)
  | none => q

/-- The image with the pixels of a block permuted. -/
def permuteBlock (stride a row k : Nat) (σ : Equiv.Perm (Fin 4)) (src : List UInt8) : List UInt8 :=
  (List.range src.length).map fun i =>
    src.getD (stride * permutePixel a row k σ (i / stride) + i % stride) 0

/-- The chroma of the pixels of a block. -/
def blockChroma (p : RgbLayout) (src : List UInt8) (c : Chroma) (a row k : Nat) (t : Fin 4) : Int :=
  p.sample src c.ofRgb (blockPixel a row k t)

/-- A chroma sample is the mean of its block: to permute the pixels does not change it, and it
is the average of their chroma, up to one.  A sample is worth `m / 2` of the units of a pixel's
chroma, and `off` is the one that is worth nothing. -/
structure IsMean (l : List Step) (target : Format) (m off : Int) (p : RgbLayout) (c : Chroma)
    (a b row k : Nat) (src dst : List UInt8) : Prop where
  invariant : ∀ σ : Equiv.Perm (Fin 4),
    (runSteps (permuteBlock p.stride.toNat a row k σ src) l dst).map
        (target.load · (c.index a b row k)) =
      (runSteps src l dst).map (target.load · (c.index a b row k))
  average : ∃ out, runSteps src l dst = some out ∧
    |2 * m * (target.load out (c.index a b row k) - off) -
      (blockChroma p src c a row k 0 + blockChroma p src c a row k 1 +
        blockChroma p src c a row k 2 + blockChroma p src c a row k 3)| ≤ 2 * m

/-- Three of the values are the same, and the fourth is as well or one more. -/
def ThreeAlike (f : Fin 4 → Int) : Prop :=
  ∃ (v : Int) (t : Fin 4), (∀ t' ≠ t, f t' = v) ∧ (f t = v ∨ f t = v + 1)

/-- The sums of any two of the values are between the same multiples of `m`. -/
def PairsAlike (m : Int) (f : Fin 4 → Int) : Prop :=
  ∃ v : Int, ∀ t t' : Fin 4, t ≠ t' → m * v ≤ f t + f t' ∧ f t + f t' < m * (v + 1)

section Mean

variable {p : RgbLayout} {c : Chroma} {a b row k : Nat} {σ : Equiv.Perm (Fin 4)}
  {src dst : List UInt8} {f : Fin 4 → Int} {m : Int}

theorem blockPixel_inj (hk : k < a) {t t' : Fin 4}
    (h : blockPixel a row k t = blockPixel a row k t') : t = t' := by
  have ht : (t : Nat) / 2 = 0 ∨ (t : Nat) / 2 = 1 := by omega
  have ht' : (t' : Nat) / 2 = 0 ∨ (t' : Nat) / 2 = 1 := by omega
  unfold blockPixel at h
  apply Fin.ext
  rcases ht with ht | ht <;> rcases ht' with ht' | ht' <;> rw [ht, ht'] at h <;> omega

theorem permutePixel_blockPixel (hk : k < a) (t : Fin 4) :
    permutePixel a row k σ (blockPixel a row k t) = blockPixel a row k (σ t) := by
  have hsame : (fun t' => decide (blockPixel a row k t' = blockPixel a row k t)) =
      fun t' => decide (t' = t) := by
    funext t'
    exact decide_eq_decide.mpr ⟨blockPixel_inj hk, fun h => h ▸ rfl⟩
  have hfind : ∀ t : Fin 4, (List.finRange 4).find? (fun t' => t' = t) = some t := by decide
  unfold permutePixel
  rw [hsame, hfind]

theorem length_permuteBlock {stride : Nat} :
    (permuteBlock stride a row k σ src).length = src.length := by
  unfold permuteBlock
  rw [List.length_map, List.length_range]

theorem load_permuteBlock {stride q i n : Nat} (hsrc : src.length = stride * n) (hq : q < n)
    (hi : i < stride) : u8.load (permuteBlock stride a row k σ src) (stride * q + i : Nat) =
      u8.load src (stride * permutePixel a row k σ q + i : Nat) := by
  have hlt : stride * q + i < src.length := by
    have hle := Nat.mul_le_mul_left stride (Nat.succ_le_of_lt hq)
    rw [Nat.mul_succ] at hle
    omega
  have hdiv : (stride * q + i) / stride = q := by
    rw [Nat.mul_add_div (by omega), Nat.div_eq_of_lt hi, Nat.add_zero]
  have hmod : (stride * q + i) % stride = i := by
    rw [Nat.mul_add_mod, Nat.mod_eq_of_lt hi]
  have hlen : stride * q + i < (permuteBlock stride a row k σ src).length := by
    rwa [length_permuteBlock]
  rw [u8_load, u8_load, List.getD_eq_getElem _ _ hlen]
  simp only [permuteBlock, List.getElem_map, List.getElem_range, hdiv, hmod]

theorem blockChroma_permuteBlock (hp : p.Proper)
    (hsrc : (src.length : Int) = p.stride * (4 * (a * b) : Nat)) (hrow : row < b) (hk : k < a)
    (t : Fin 4) :
    blockChroma p (permuteBlock p.stride.toNat a row k σ src) c a row k t =
      blockChroma p src c a row k (σ t) := by
  obtain ⟨stride, hstride⟩ : ∃ n : Nat, p.stride = n :=
    Int.eq_ofNat_of_zero_le (hp.ir.1.trans (Int.le_of_lt hp.ir.2))
  have hload : ∀ i, 0 ≤ i ∧ i < p.stride →
      u8.load (permuteBlock p.stride.toNat a row k σ src) (p.stride * blockPixel a row k t + i) =
        u8.load src (p.stride * blockPixel a row k (σ t) + i) := by
    rintro i ⟨h0, h1⟩
    lift i to Nat using h0
    rw [hstride] at hsrc h1 ⊢
    have h := @load_permuteBlock a row k σ src stride _ i _ (by exact_mod_cast hsrc)
      (blockPixel_lt hrow hk t) (by omega)
    rw [permutePixel_blockPixel hk] at h
    exact_mod_cast h
  unfold blockChroma RgbLayout.sample
  rw [hload _ hp.ir, hload _ hp.ig, hload _ hp.ib]

variable {target : Format} {luma chroma : Int → Int} {off : Int}

/-- The sums of any two of the values are worth the same. -/
theorem pairsAlike_iff (hm : 0 < m) :
    PairsAlike m f ↔ ∀ σ : Equiv.Perm (Fin 4), (f (σ 2) + f (σ 3)) / m = (f 2 + f 3) / m := by
  have hquot : ∀ v x : Int, m * v ≤ x ∧ x < m * (v + 1) ↔ x / m = v := by
    intro v x
    rw [Int.ediv_eq_iff_of_pos hm, Int.mul_comm v m, Int.mul_add, Int.mul_one]
  have hperm : ∀ t t' : Fin 4, t ≠ t' → ∃ σ : Equiv.Perm (Fin 4), σ 2 = t ∧ σ 3 = t' := by decide
  unfold PairsAlike
  simp only [hquot]
  constructor
  · rintro ⟨v, hv⟩ σ
    rw [hv _ _ (σ.injective.ne (by decide)), hv 2 3 (by decide)]
  · intro h
    refine ⟨(f 2 + f 3) / m, fun t t' hne => ?_⟩
    obtain ⟨σ, rfl, rfl⟩ := hperm t t' hne
    exact h σ

theorem PairsAlike.average (h : PairsAlike m f) :
    |2 * m * ((f 2 + f 3) / m) - (f 0 + f 1 + f 2 + f 3)| ≤ 2 * m := by
  obtain ⟨v, hv⟩ := h
  obtain ⟨hlo, hhi⟩ := hv 0 1 (by decide)
  obtain ⟨hlo', hhi'⟩ := hv 2 3 (by decide)
  rw [Int.mul_add, Int.mul_one] at hhi hhi'
  have hm : 0 < m := by omega
  have hquot : (f 2 + f 3) / m = v := by
    rw [Int.ediv_eq_iff_of_pos hm, Int.mul_comm v m]
    exact ⟨hlo', hhi'⟩
  rw [hquot, Int.mul_assoc, abs_le]
  omega

/-- For sums cut in halves, that is almost to be the same. -/
theorem pairsAlike_two_iff : PairsAlike 2 f ↔ ThreeAlike f := by
  constructor
  · rintro ⟨v, hv⟩
    have h01 := hv 0 1 (by decide)
    have h02 := hv 0 2 (by decide)
    have h03 := hv 0 3 (by decide)
    have h12 := hv 1 2 (by decide)
    have h13 := hv 1 3 (by decide)
    have h23 := hv 2 3 (by decide)
    have halike : ∀ t : Fin 4, (f t = v ∨ f t = v + 1) → (∀ t' ≠ t, f t' = v) → ThreeAlike f :=
      fun t ht hother => ⟨v, t, hother, ht⟩
    -- Two of them cannot be one more, and none can be one less.
    by_cases h0 : f 0 = v
    · by_cases h1 : f 1 = v
      · by_cases h2 : f 2 = v
        · refine halike 3 (by omega) fun t' ht' => ?_
          fin_cases t' <;> first | assumption | exact absurd rfl ht'
        · refine halike 2 (by omega) fun t' ht' => ?_
          have h3 : f 3 = v := by omega
          fin_cases t' <;> first | assumption | exact absurd rfl ht'
      · refine halike 1 (by omega) fun t' ht' => ?_
        have h2 : f 2 = v := by omega
        have h3 : f 3 = v := by omega
        fin_cases t' <;> first | assumption | exact absurd rfl ht'
    · refine halike 0 (by omega) fun t' ht' => ?_
      have h1 : f 1 = v := by omega
      have h2 : f 2 = v := by omega
      have h3 : f 3 = v := by omega
      fin_cases t' <;> first | assumption | exact absurd rfl ht'
  · rintro ⟨v, t, hother, ht⟩
    refine ⟨v, fun i j hne => ?_⟩
    by_cases hi : i = t
    · have hj := hother j fun hj => hne (hi.trans hj.symm)
      subst hi
      omega
    · have hi' := hother i hi
      by_cases hj : j = t
      · subst hj
        omega
      · have hj' := hother j hj
        omega

/-- What a routine leaves of the chroma of a block. -/
theorem load_chroma (hval : ∀ x, -57120 ≤ x → x ≤ 57120 → target.wrap (chroma x) = x / m + off)
    (hrow : row < b) (hk : k < a) {out : List UInt8}
    (hrun : runSteps src (stepsFor b fun row => stepsFor a (yvuBlock target luma chroma p a b row))
      dst = some out) : target.load out (c.index a b row k) =
        (blockChroma p src c a row k 2 + blockChroma p src c a row k 3) / m + off := by
  have h2 := @sample_chroma_bounds p src (blockPixel a row k 2) c
  have h3 := @sample_chroma_bounds p src (blockPixel a row k 3) c
  rw [(blockOf_of_run hrow hk hrun).chroma c, hval _ (by omega) (by omega)]
  rfl

/-- A chroma sample is the mean of its block just if any two pixels of the block would have
given it. -/
theorem isMean_iff (hm : 0 < m)
    (hval : ∀ x, -57120 ≤ x → x ≤ 57120 → target.wrap (chroma x) = x / m + off) (hp : p.Proper)
    (hsrc : (src.length : Int) = p.stride * (4 * (a * b) : Nat))
    (htarget : ∀ i < 6 * (a * b), target.Within dst.length i) (hrow : row < b) (hk : k < a) :
    IsMean (stepsFor b fun row => stepsFor a (yvuBlock target luma chroma p a b row)) target m off
      p c a b row k src dst ↔ PairsAlike m (blockChroma p src c a row k) := by
  have hrun : ∀ src' : List UInt8, (src'.length : Int) = p.stride * (4 * (a * b) : Nat) →
      ∃ out, runSteps src' (stepsFor b fun row => stepsFor a
        (yvuBlock target luma chroma p a b row)) dst = some out ∧
        target.load out (c.index a b row k) =
          (blockChroma p src' c a row k 2 + blockChroma p src' c a row k 3) / m + off := by
    intro src' hsrc'
    obtain ⟨out, hout⟩ := runSteps_isSome_iff.mpr (fits_yvu hp hsrc' htarget)
    exact ⟨out, hout, load_chroma hval hrow hk hout⟩
  obtain ⟨out, hout, hload⟩ := hrun src hsrc
  have hinvariant : ∀ σ, (runSteps (permuteBlock p.stride.toNat a row k σ src)
      (stepsFor b fun row => stepsFor a (yvuBlock target luma chroma p a b row)) dst).map
        (target.load · (c.index a b row k)) = (runSteps src (stepsFor b fun row => stepsFor a
          (yvuBlock target luma chroma p a b row)) dst).map (target.load · (c.index a b row k)) ↔
      (blockChroma p src c a row k (σ 2) + blockChroma p src c a row k (σ 3)) / m =
        (blockChroma p src c a row k 2 + blockChroma p src c a row k 3) / m := by
    intro σ
    obtain ⟨out', hout', hload'⟩ := hrun (permuteBlock p.stride.toNat a row k σ src)
      (by rw [length_permuteBlock, hsrc])
    rw [blockChroma_permuteBlock hp hsrc hrow hk,
      blockChroma_permuteBlock hp hsrc hrow hk] at hload'
    rw [hout, hout', Option.map_some, Option.map_some, Option.some.injEq, hload, hload']
    omega
  constructor
  · intro h
    exact (pairsAlike_iff hm).mpr fun σ => (hinvariant σ).mp (h.invariant σ)
  · intro h
    refine ⟨fun σ => (hinvariant σ).mpr ((pairsAlike_iff hm).mp h σ), out, hout, ?_⟩
    rw [hload, Int.add_sub_cancel]
    exact h.average

/-- When the chroma samples of the two routines are the mean of their blocks: in 16 bits, three
of the four pixels need the same chroma, and the fourth may have one more. -/
theorem chroma_mean_iff {a' b' : Nat} {rgb dst' : List UInt8} (hp : p.Proper)
    (hdims : YvuDims p a b) (hsrc : (src.length : Int) = p.stride * (4 * (a * b) : Nat))
    (hdst : dst.length = 2 * (6 * (a * b))) (hdims' : YvuDims rgbLayout a' b')
    (hrgb : rgb.length = 3 * (4 * (a' * b'))) (hdst' : dst'.length = 6 * (a' * b')) :
    (∃ l, llconvRgb2yvuPlanar16subIndexed p (2 * a) (2 * b) = some l ∧
      ∀ row < b, ∀ k < a, ∀ c, IsMean l s16 2 0 p c a b row k src dst ↔
        ThreeAlike (blockChroma p src c a row k)) ∧
    ∃ l, llconvRgb2yvuPlanar8sub (2 * a') (2 * b') = some l ∧
      ∀ row < b', ∀ k < a', ∀ c, IsMean l u8 512 128 rgbLayout c a' b' row k rgb dst' ↔
        PairsAlike 512 (blockChroma rgbLayout rgb c a' row k) := by
  constructor
  · refine ⟨_, llconvRgb2yvu_eq hdims, fun row hrow k hk c => ?_⟩
    rw [← pairsAlike_two_iff]
    refine isMean_iff (by decide) (fun x h0 h1 => ?_) hp hsrc
      (fun i hi => within_s16.mpr (by omega)) hrow hk
    rw [chroma_s16 h0 h1, Int.add_zero]
  · refine ⟨_, llconvRgb2yvu_eq hdims', fun row hrow k hk c => ?_⟩
    refine isMean_iff (by decide) (fun x h0 h1 => chroma_u8 h0 h1) proper_rgbLayout
      (by rw [hrgb]; exact Nat.cast_mul 3 (4 * (a' * b')))
      (fun i hi => within_u8.mpr (by omega)) hrow hk

/-- A red, a green, a blue and a grey pixel, of four bytes each. -/
def fourColours : List UInt8 := [255, 0, 0, 0, 0, 255, 0, 0, 0, 0, 255, 0, 9, 9, 9, 0]

/-- Two grey pixels over a grey and a white one. -/
def threeGreys : List UInt8 := [9, 9, 9, 9, 9, 9, 9, 9, 9, 255, 255, 255]

/-- Blocks of more than one colour. -/
theorem chroma_mean_iff_colours :
    (∃ l, llconvRgb2yvuPlanar16subIndexed ⟨0, 1, 2, 4⟩ (2 * (1 : Nat)) (2 * (1 : Nat)) = some l ∧
      ∀ row < 1, ∀ k < 1, ∀ c, IsMean l s16 2 0 ⟨0, 1, 2, 4⟩ c 1 1 row k fourColours
        (List.replicate 12 0) ↔
          ThreeAlike (blockChroma ⟨0, 1, 2, 4⟩ fourColours c 1 row k)) ∧
    ∃ l, llconvRgb2yvuPlanar8sub (2 * (1 : Nat)) (2 * (1 : Nat)) = some l ∧
      ∀ row < 1, ∀ k < 1, ∀ c, IsMean l u8 512 128 rgbLayout c 1 1 row k threeGreys
        (List.replicate 6 0) ↔
          PairsAlike 512 (blockChroma rgbLayout threeGreys c 1 row k) :=
  chroma_mean_iff ⟨by decide, by decide, by decide⟩ ⟨by decide, by decide⟩ rfl rfl
    ⟨by decide, by decide⟩ rfl rfl

/-- Two red pixels over two black ones. -/
def redOverBlack : List UInt8 := [255, 0, 0, 255, 0, 0, 0, 0, 0, 0, 0, 0]

/-- Their block has no red in it. -/
theorem not_chroma_mean :
    (∃ l, llconvRgb2yvuPlanar16subIndexed rgbLayout (2 * (1 : Nat)) (2 * (1 : Nat)) = some l ∧
      ¬ IsMean l s16 2 0 rgbLayout .v 1 1 0 0 redOverBlack (List.replicate 12 0)) ∧
    ∃ l, llconvRgb2yvuPlanar8sub (2 * (1 : Nat)) (2 * (1 : Nat)) = some l ∧
      ¬ IsMean l u8 512 128 rgbLayout .v 1 1 0 0 redOverBlack (List.replicate 6 0) := by
  have hdims : YvuDims rgbLayout 1 1 := ⟨by decide, by decide⟩
  -- The sum of the upper pixels is far from that of the lower ones.
  have hpairs : ∀ m : Int, 0 < m → m ≤ 512 →
      ¬ PairsAlike m (blockChroma rgbLayout redOverBlack .v 1 0 0) := by
    rintro m h0 h1 ⟨v, hv⟩
    obtain ⟨_, hhi⟩ := hv 2 3 (by decide)
    obtain ⟨hlo, _⟩ := hv 2 3 (by decide)
    obtain ⟨hlo', hhi'⟩ := hv 0 1 (by decide)
    have hupper : blockChroma rgbLayout redOverBlack .v 1 0 0 0 +
        blockChroma rgbLayout redOverBlack .v 1 0 0 1 = 57120 := by decide
    have hlower : blockChroma rgbLayout redOverBlack .v 1 0 0 2 +
        blockChroma rgbLayout redOverBlack .v 1 0 0 3 = 0 := by decide
    rw [Int.mul_add, Int.mul_one] at hhi hhi'
    omega
  constructor
  · refine ⟨_, llconvRgb2yvu_eq hdims, fun hmean => hpairs 2 (by decide) (by decide) ?_⟩
    refine (isMean_iff (by decide) (fun x h0 h1 => ?_) proper_rgbLayout rfl
      (fun i hi => ?_) (by decide) (by decide)).mp hmean
    · rw [chroma_s16 h0 h1, Int.add_zero]
    · rw [within_s16, List.length_replicate]
      omega
  · refine ⟨_, llconvRgb2yvu_eq hdims, fun hmean => hpairs 512 (by decide) (by decide) ?_⟩
    refine (isMean_iff (by decide) (fun x h0 h1 => chroma_u8 h0 h1) proper_rgbLayout rfl
      (fun i hi => ?_) (by decide) (by decide)).mp hmean
    rw [within_u8, List.length_replicate]
    omega

end Mean

end PureDataPacket
