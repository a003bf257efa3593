/-
# `PureDataPacket.Image.Gain` — a gain as a number and a shift

The gain is doubled until it has fifteen bits, 17 times at most.  Pixels are multiplied by the
number that comes of this, and shifted back.  In plain C that number is an `s32`, in `gccMmx` it is
an `s16`, so that the gain has to be below 32768.

A gain is a rational number: to double a `float` and to change its sign is exact.

| | |
| :-- | :-- |
| `gainLoop_eq` | where the loop that doubles the gain stops |
| `shift_bound` | how large the gain is then |
| `gainPixel_agree` | only the smallest of all pixels is not stored by both |
| `abs_shifted_sub_lt` | the shifted product, against the exact one |
-/
import Mathlib.Algebra.Order.Floor.Ring
import Mathlib.Tactic.Linarith
import PureDataPacket.Image.Bilinear
import PureDataPacket.Image.Chebyshev
import PureDataPacket.Image.Noise
import PureDataPacket.Image.Plasma
import PureDataPacket.Image.Values

namespace PureDataPacket

/-! ## The routines -/

/-- The loop of `pdp_imageproc_gain_setgain`: the gain, and the shift. -/
def gainLoop : Nat → ℚ × Nat → ℚ × Nat
  | 0, s => s
  | n + 1, (gain, shift) =>
      if gain < 0x4000 then gainLoop n (gain * 2, shift + 1) else (gain, shift)

/-- What `pdp_imageproc_gain_setgain` converts, and the shift. -/
def scaledGain (gain : ℚ) : ℚ × Nat :=
  let sign : ℚ := if gain < 0 then -1 else 1
  let r := gainLoop 17 (gain * sign, 0)
  (r.1 * sign, r.2)

namespace Portable

/-- `s32 d[2]`. -/
structure Gain where
  gain : Int
  shift : Nat

/-- `pdp_imageproc_gain_setgain`. -/
def pdpImageprocGainSetgain (gain : ℚ) : Option Gain :=
  (intOf (scaledGain gain).1).map fun g => ⟨g, (scaledGain gain).2⟩

/-- What is stored for a pixel. -/
def gainPixel (d : Gain) (a : S16) : S16 :=
  toS16 (CLAMP16 (toInt32 (a.toInt * d.gain) / 2 ^ d.shift))

/-- A round of the loop of `pdp_imageproc_gain_process`. -/
def gainRound (d : Gain) (i : Nat) (image : List S16) : Option (List S16) := do
  let a ← image[i]?
  return image.set i (gainPixel d a)

/-- `pdp_imageproc_gain_process`. -/
def pdpImageprocGainProcess (d : Gain) (width height : Nat) (image : List S16) :
    Option (List S16) :=
  rounds (gainRound d) (u32 (width * height)) 0 image

end Portable

/-- The 64 bits of a register. -/
def M64.count (m : M64) : Nat :=
  m.s0.toNat + 2 ^ 16 * m.s1.toNat + 2 ^ 32 * m.s2.toNat + 2 ^ 48 * m.s3.toNat

/-- `_mm_sra_pi32`. -/
def V2.sra (a : V2) (count : M64) : V2 :=
  ⟨a.l0.sshiftRight (min 31 count.count), a.l1.sshiftRight (min 31 count.count)⟩

namespace GccMmx

/-- `s16 d[8]`, as two registers. -/
structure Gain where
  gain : M64
  shift : M64

/-- `pdp_imageproc_gain_setgain`. -/
def pdpImageprocGainSetgain (gain : ℚ) : Option Gain :=
  (s16Of (scaledGain gain).1).map fun g => ⟨⟨g, g, g, g⟩, ⟨toS16 (scaledGain gain).2, 0, 0, 0⟩⟩

/-- What is stored for four pixels. -/
def gainVector (d : Gain) (pix : M64) : M64 :=
  let lo4 := pmullw d.gain pix
  let hi4 := pmulhw d.gain pix
  let w0 := (punpcklwd lo4 hi4).toV2
  let w1 := (unpackhi lo4 hi4).toV2
  packs (w0.sra d.shift) (w1.sra d.shift)

/-- A round of the loop of `pdp_imageproc_gain_process`. -/
def gainRound (d : Gain) (v : Nat) (image : List S16) : Option (List S16) := do
  let pix ← M64.load image v
  return M64.store image v (gainVector d pix)

/-- `pdp_imageproc_gain_process`. -/
def pdpImageprocGainProcess (d : Gain) (width height : Nat) (image : List S16) :
    Option (List S16) :=
  rounds (gainRound d) (u32 (width * height) / 4) 0 image

end GccMmx

/-! ## The number and the shift -/

section Scaling

/-- Doubled `k` times, the gain has fifteen bits, or `k` is as large as it gets. -/
theorem gainLoop_eq (n : Nat) : ∀ (gain : ℚ) (shift : Nat), ∃ k ≤ n,
    gainLoop n (gain, shift) = (gain * 2 ^ k, shift + k) ∧
      (0x4000 ≤ gain * 2 ^ k ∨ k = n) ∧ (gain * 2 ^ k < 0x8000 ∨ k = 0) := by
  induction n with
  | zero =>
      intro gain shift
      refine ⟨0, le_rfl, ?_, Or.inr rfl, Or.inr rfl⟩
      rw [pow_zero, mul_one]
      rfl
  | succ n ih =>
      intro gain shift
      by_cases hsmall : gain < 0x4000
      · obtain ⟨k, hk, hrun, hlarge, hbelow⟩ := ih (gain * 2) (shift + 1)
        have hpower : gain * 2 * 2 ^ k = gain * 2 ^ (k + 1) := by
          rw [pow_succ', mul_assoc]
        rw [hpower] at hrun hlarge hbelow
        refine ⟨k + 1, by omega, ?_, hlarge.imp_right fun h => by omega, Or.inl ?_⟩
        · unfold gainLoop
          rw [if_pos hsmall, hrun, Nat.add_right_comm, Nat.add_assoc shift k 1]
        · rcases hbelow with hbelow | rfl
          · exact hbelow
          · rw [zero_add, pow_one]
            linarith
      · refine ⟨0, Nat.zero_le _, ?_, Or.inl ?_, Or.inr rfl⟩
        · unfold gainLoop
          rw [if_neg hsmall, pow_zero, mul_one]
          rfl
        · rw [pow_zero, mul_one]
          exact not_lt.mp hsmall

theorem scaledGain_eq (gain : ℚ) : ∃ k ≤ 17, scaledGain gain = (gain * 2 ^ k, k) ∧
    (0x4000 ≤ |gain| * 2 ^ k ∨ k = 17) := by
  have hsign : ∃ sign : ℚ, (if gain < 0 then (-1 : ℚ) else 1) = sign ∧ gain * sign = |gain| ∧
      sign * sign = 1 := by
    by_cases hneg : gain < 0
    · exact ⟨-1, if_pos hneg, by rw [abs_of_neg hneg, mul_neg_one], by norm_num⟩
    · exact ⟨1, if_neg hneg, by rw [abs_of_nonneg (not_lt.mp hneg), mul_one], by norm_num⟩
  obtain ⟨sign, hif, habs, hsquare⟩ := hsign
  obtain ⟨k, hk, hrun, hlarge, -⟩ := gainLoop_eq 17 |gain| 0
  refine ⟨k, hk, ?_, hlarge⟩
  have hback : |gain| * 2 ^ k * sign = gain * 2 ^ k := by
    rw [← habs, mul_right_comm, mul_assoc gain, hsquare, mul_one]
  show ((gainLoop 17 (gain * (if gain < 0 then -1 else 1), 0)).1 * (if gain < 0 then -1 else 1),
    (gainLoop 17 (gain * (if gain < 0 then -1 else 1), 0)).2) = _
  rw [hif, habs, hrun, hback, Nat.zero_add]

theorem abs_truncate_sub_lt (x : ℚ) : |(truncate x : ℚ) - x| < 1 := by
  unfold truncate
  split
  · have hceil := Int.ceil_lt_add_one x
    have hle := Int.le_ceil x
    rw [abs_lt]
    constructor <;> linarith
  · have hfloor := Int.lt_floor_add_one x
    have hle := Int.floor_le x
    rw [abs_lt]
    constructor <;> linarith

end Scaling

/-! ## One pixel -/

section Pixel

variable {a g : S16} {n : Int} {k : Nat}

theorem append_product : mulhiPixel g a ++ (g * a : S16) = BitVec.ofInt 32 (g.toInt * a.toInt) := by
  have hlow : g * a = toS16 (g.toInt * a.toInt) := by
    unfold toS16
    rw [BitVec.ofInt_mul, BitVec.ofInt_toInt, BitVec.ofInt_toInt]
  rw [hlow]
  unfold mulhiPixel toS16
  generalize g.toInt * a.toInt = p
  refine BitVec.eq_of_toNat_eq ?_
  rw [BitVec.toNat_append, ← Nat.shiftLeft_add_eq_or_of_lt (BitVec.isLt _), Nat.shiftLeft_eq,
    BitVec.toNat_ofInt, BitVec.toNat_ofInt, BitVec.toNat_ofInt]
  omega

theorem packsWord_product (hk : k ≤ 31) :
    packsWord ((mulhiPixel g a ++ (g * a : S16)).sshiftRight (min 31 k)) =
      toS16 (max (-0x8000) (min 0x7fff (g.toInt * a.toInt / 2 ^ k))) := by
  obtain ⟨hlo, hhi⟩ := pixel_bounds a
  obtain ⟨h1, h2⟩ := product_bounds g hlo hhi.le
  rw [append_product, min_eq_right hk]
  unfold packsWord
  rw [BitVec.toInt_sshiftRight, BitVec.toInt_ofInt, Int.bmod_eq_of_le (by omega) (by omega),
    Int.shiftRight_eq_div_pow]
  push_cast
  rfl

/-- What is stored by the intrinsics. -/
def GccMmx.gainPixel (g : S16) (k : Nat) (a : S16) : S16 :=
  toS16 (max (-0x8000) (min 0x7fff (g.toInt * a.toInt / 2 ^ k)))

theorem GccMmx.gainVector_eq (hk : k ≤ 17) (pix : M64) :
    GccMmx.gainVector ⟨⟨g, g, g, g⟩, ⟨toS16 k, 0, 0, 0⟩⟩ pix =
      ⟨GccMmx.gainPixel g k pix.s0, GccMmx.gainPixel g k pix.s1, GccMmx.gainPixel g k pix.s2,
        GccMmx.gainPixel g k pix.s3⟩ := by
  have hcount : M64.count ⟨toS16 k, 0, 0, 0⟩ = k := by
    have hlow : (toS16 k).toNat = k := by
      rw [toS16_natCast, BitVec.toNat_ofNat]
      omega
    show (toS16 k).toNat + 2 ^ 16 * 0 + 2 ^ 32 * 0 + 2 ^ 48 * 0 = k
    rw [hlow]
    omega
  have hk' : k ≤ 31 := Nat.le_trans hk (by decide)
  unfold GccMmx.gainVector GccMmx.gainPixel V2.sra packs
  rw [hcount]
  exact congrArg₂ (fun p q : S16 × S16 => (⟨p.1, p.2, q.1, q.2⟩ : M64))
    (congrArg₂ Prod.mk (packsWord_product hk') (packsWord_product hk'))
    (congrArg₂ Prod.mk (packsWord_product hk') (packsWord_product hk'))

theorem Portable.toInt_gainPixel (hlo : -2 ^ 15 ≤ n) (hhi : n ≤ 2 ^ 15) :
    (Portable.gainPixel ⟨n, k⟩ a).toInt = Portable.CLAMP16 (a.toInt * n / 2 ^ k) := by
  obtain ⟨h1, h2⟩ := product_bounds a hlo hhi
  have hint : toInt32 (a.toInt * n) = a.toInt * n := by
    unfold toInt32
    apply Int.bmod_eq_of_le <;> omega
  unfold Portable.gainPixel
  rw [Portable.toInt_toS16_CLAMP16, hint]

theorem gainPixel_agree (g : S16) (k : Nat) (a : S16) :
    GccMmx.gainPixel g k a = Portable.gainPixel ⟨g.toInt, k⟩ a ∨
      (Portable.gainPixel ⟨g.toInt, k⟩ a).toInt = -0x7fff ∧
        (GccMmx.gainPixel g k a).toInt = -0x8000 := by
  obtain ⟨hlo, hhi⟩ := pixel_bounds g
  have hportable := @Portable.toInt_gainPixel a g.toInt k hlo hhi.le
  have hgcc : (GccMmx.gainPixel g k a).toInt =
      max (-0x8000) (min 0x7fff (a.toInt * g.toInt / 2 ^ k)) := by
    unfold GccMmx.gainPixel
    rw [mul_comm]
    apply toInt_toS16 <;> omega
  unfold Portable.CLAMP16 at hportable
  by_cases hlow : a.toInt * g.toInt / 2 ^ k < -0x7fff
  · right
    rw [if_neg (by omega), if_pos hlow] at hportable
    exact ⟨hportable, by omega⟩
  · left
    refine BitVec.eq_of_toInt_eq ?_
    rw [hportable, hgcc, if_neg hlow]
    split <;> omega

end Pixel

/-! ## How exact it is -/

section Exact

open Portable

theorem CLAMP16F_intCast (n : Int) : CLAMP16F n = CLAMP16 n := by
  have hhigh : (n : ℚ) > 0x7fff ↔ n > 0x7fff := by norm_cast
  have hlow : (n : ℚ) < -0x7fff ↔ n < -0x7fff := by
    rw [← Int.cast_lt (R := ℚ)]
    norm_num
  unfold CLAMP16F CLAMP16
  simp only [hhigh, hlow]
  split_ifs
  · norm_num
  · norm_num
  · rfl

theorem abs_CLAMP16F_sub_le (x y : ℚ) : |CLAMP16F x - CLAMP16F y| ≤ |x - y| := by
  have hle := le_abs_self (x - y)
  have hge := neg_abs_le (x - y)
  unfold CLAMP16F
  rw [abs_le]
  split_ifs <;> constructor <;> linarith

theorem abs_shifted_sub_lt (a g : Int) (k : Nat) (gain : ℚ) (hg : |(g : ℚ) - gain * 2 ^ k| < 1) :
    |((a * g / 2 ^ k : Int) : ℚ) - a * gain| < 1 + |(a : ℚ)| / 2 ^ k := by
  have hpos : (0 : ℚ) < 2 ^ k := by positivity
  have hpos' : (0 : Int) < 2 ^ k := by positivity
  have hlow : ((a * g / 2 ^ k : Int) : ℚ) * 2 ^ k ≤ a * g := by
    exact_mod_cast Int.ediv_mul_le (a * g) hpos'.ne'
  have hhigh : (a * g : ℚ) < (((a * g / 2 ^ k : Int) : ℚ) + 1) * 2 ^ k := by
    exact_mod_cast Int.lt_ediv_add_one_mul_self (a * g) hpos'
  have hfloor : |((a * g / 2 ^ k : Int) : ℚ) - a * g / 2 ^ k| < 1 := by
    rw [abs_lt]
    constructor
    · have := (div_lt_iff₀ hpos).mpr hhigh
      linarith
    · have := (le_div_iff₀ hpos).mpr hlow
      linarith
  have hnumber : |(a * g / 2 ^ k : ℚ) - a * gain| ≤ |(a : ℚ)| / 2 ^ k := by
    have hdiff : (a * g / 2 ^ k : ℚ) - a * gain = a * (g - gain * 2 ^ k) / 2 ^ k := by
      field_simp
    rw [hdiff, abs_div, abs_mul, abs_of_pos hpos]
    exact div_le_div_of_nonneg_right
      (mul_le_of_le_one_right (abs_nonneg _) hg.le) hpos.le
  have htriangle := abs_sub_le ((a * g / 2 ^ k : Int) : ℚ) (a * g / 2 ^ k) (a * gain)
  linarith

/-- The gain has fifteen bits, or as many as there are 17 places behind the point. -/
theorem shift_bound (a : ℚ) {gain : ℚ} {k : Nat} (h : 0x4000 ≤ |gain| * 2 ^ k ∨ k = 17) :
    |a| / 2 ^ k ≤ max (|a| / 2 ^ 17) (|a * gain| / 2 ^ 14) := by
  rcases h with hlarge | rfl
  · refine le_trans ?_ (le_max_right _ _)
    have hpos : (0 : ℚ) < 2 ^ k := by positivity
    rw [div_le_div_iff₀ hpos (by norm_num), abs_mul, mul_assoc]
    refine mul_le_mul_of_nonneg_left ?_ (abs_nonneg a)
    norm_num at hlarge ⊢
    exact hlarge
  · exact le_max_left _ _

end Exact

/-! ## Both versions -/

section Loops

variable {image : List S16} {n k : Nat} {g : S16}

theorem Portable.rounds_gain (d : Portable.Gain) (hn : n ≤ image.length) :
    rounds (Portable.gainRound d) n 0 image =
      some (processed (fun a _ => Portable.gainPixel d a) ⟨image, none⟩ n).image := by
  have hloop : rounds (Portable.gainRound d) n 0
      (processed (fun a _ => Portable.gainPixel d a) ⟨image, none⟩ 0).image =
        some (processed (fun a _ => Portable.gainPixel d a) ⟨image, none⟩ (0 + n)).image := by
    refine @rounds_eq _ _
      (fun i => (processed (fun a _ => Portable.gainPixel d a) ⟨image, none⟩ i).image) n 0 ?_
    intro i _ hi
    have ha := List.getElem?_eq_getElem (show i < image.length by omega)
    have hread := (@getElem?_processed_of_ge (fun a _ => Portable.gainPixel d a) ⟨image, none⟩ i i
      le_rfl).trans ha
    unfold Portable.gainRound
    rw [hread]
    exact congrArg some (@set_processed (fun a _ => Portable.gainPixel d a) ⟨image, none⟩ i _ _
      ha ha)
  rwa [processed_zero, Nat.zero_add] at hloop

theorem GccMmx.rounds_gain (hk : k ≤ 17) (hn : 4 * n ≤ image.length) :
    rounds (GccMmx.gainRound ⟨⟨g, g, g, g⟩, ⟨toS16 k, 0, 0, 0⟩⟩) n 0 image =
      some (processed (fun a _ => GccMmx.gainPixel g k a) ⟨image, none⟩ (4 * n)).image := by
  have hloop : rounds (GccMmx.gainRound ⟨⟨g, g, g, g⟩, ⟨toS16 k, 0, 0, 0⟩⟩) n 0
      (processed (fun a _ => GccMmx.gainPixel g k a) ⟨image, none⟩ (4 * 0)).image =
        some (processed (fun a _ => GccMmx.gainPixel g k a) ⟨image, none⟩ (4 * (0 + n))).image := by
    refine @rounds_eq _ _
      (fun v => (processed (fun a _ => GccMmx.gainPixel g k a) ⟨image, none⟩ (4 * v)).image) n 0 ?_
    intro v _ hv
    obtain ⟨pix, hload, h0, h1, h2, h3⟩ := @load_eq image v (by omega)
    have hread : M64.load (processed (fun a _ => GccMmx.gainPixel g k a) ⟨image, none⟩
        (4 * v)).image v = some pix := by
      rw [← hload]
      exact load_congr fun i hi => getElem?_processed_of_ge hi
    unfold GccMmx.gainRound
    rw [hread]
    refine congrArg some ?_
    rw [GccMmx.gainVector_eq hk]
    unfold M64.store
    rw [@set_processed _ ⟨image, none⟩ _ _ _ h0 h0, @set_processed _ ⟨image, none⟩ _ _ _ h1 h1,
      @set_processed _ ⟨image, none⟩ _ _ _ h2 h2, @set_processed _ ⟨image, none⟩ _ _ _ h3 h3]
    rfl
  rwa [processed_zero, Nat.zero_add] at hloop

theorem getElem?_treated (f : S16 → S16) (i : Nat) :
    (processed (fun a _ => f a) ⟨image, none⟩ n).image[i]? =
      if i < n then image[i]?.map f else image[i]? := by
  simp only [processed, List.getElem?_mapIdx]
  cases image[i]? <;> split <;> rfl

end Loops

/-- A gain that the intrinsics can be given: both versions store the product, no further from the
exact one than rounding down, and 14 bits of the gain or 17 behind the point, allow; and they store
the same, but for the smallest pixel.  What is behind the last vector only plain C treats. -/
theorem gain_agrees {gain : ℚ} {d : GccMmx.Gain}
    (h : GccMmx.pdpImageprocGainSetgain gain = some d) :
    ∃ e, Portable.pdpImageprocGainSetgain gain = some e ∧
      (∀ a : S16, |((Portable.gainPixel e a).toInt : ℚ) - Portable.CLAMP16F (a.toInt * gain)| <
        1 + max (|(a.toInt : ℚ)| / 2 ^ 17) (|a.toInt * gain| / 2 ^ 14)) ∧
      ∀ (width height : Nat) (image : List S16), u32 (width * height) ≤ image.length →
        ∃ image₁ image₂, Portable.pdpImageprocGainProcess e width height image = some image₁ ∧
          GccMmx.pdpImageprocGainProcess d width height image = some image₂ ∧
          (∀ i, image₁[i]? = if i < u32 (width * height) then
            image[i]?.map (Portable.gainPixel e) else image[i]?) ∧
          (∀ i < 4 * (u32 (width * height) / 4), image₂[i]? = image₁[i]? ∨
            image₁[i]? = some (-0x7fff) ∧ image₂[i]? = some (-0x8000)) ∧
          ∀ i, 4 * (u32 (width * height) / 4) ≤ i → image₂[i]? = image[i]? := by
  obtain ⟨k, hk, hscaled, hlarge⟩ := scaledGain_eq gain
  unfold GccMmx.pdpImageprocGainSetgain at h
  rw [hscaled] at h
  obtain ⟨g, hg, rfl⟩ := Option.map_eq_some_iff.mp h
  have hnumber : -2 ^ 15 ≤ truncate (gain * 2 ^ k) ∧ truncate (gain * 2 ^ k) < 2 ^ 15 ∧
      g = toS16 (truncate (gain * 2 ^ k)) := by
    unfold s16Of at hg
    split at hg
    · next hrange => exact ⟨hrange.1, hrange.2, (Option.some.inj hg).symm⟩
    · cases hg
  obtain ⟨hlo, hhi, hvalue⟩ := hnumber
  have htoInt : g.toInt = truncate (gain * 2 ^ k) := by
    rw [hvalue, toInt_toS16 hlo hhi]
  refine ⟨⟨g.toInt, k⟩, ?_, fun a => ?_, fun width height image hsize => ?_⟩
  · unfold Portable.pdpImageprocGainSetgain intOf
    rw [hscaled]
    dsimp only
    rw [if_pos (by omega), htoInt]
    rfl
  · rw [Portable.toInt_gainPixel (by omega) (by omega), ← CLAMP16F_intCast]
    have hnear := abs_shifted_sub_lt a.toInt g.toInt k gain
      (by rw [htoInt]; exact abs_truncate_sub_lt _)
    have hclamp := abs_CLAMP16F_sub_le ((a.toInt * g.toInt / 2 ^ k : Int) : ℚ) (a.toInt * gain)
    have hbits := shift_bound (a.toInt : ℚ) hlarge
    linarith
  · have hvectors : 4 * (u32 (width * height) / 4) ≤ image.length := by omega
    refine ⟨_, _, Portable.rounds_gain _ hsize, GccMmx.rounds_gain hk hvectors,
      getElem?_treated _, fun i hi => ?_, fun i hi => ?_⟩
    · have hlt := List.getElem?_eq_getElem (show i < image.length by omega)
      rw [getElem?_treated, getElem?_treated, if_pos hi, if_pos (by omega), hlt]
      refine (gainPixel_agree g k image[i]).imp (congrArg some) fun hlow => ⟨?_, ?_⟩
      · exact congrArg some (BitVec.eq_of_toInt_eq hlow.1)
      · exact congrArg some (BitVec.eq_of_toInt_eq hlow.2)
    · rw [getElem?_treated, if_neg (by omega)]

/-- The smallest gain that is not doubled. -/
theorem gain_agrees_large : ∃ e, Portable.pdpImageprocGainSetgain 0x4000 = some e ∧
    |((Portable.gainPixel e 1).toInt : ℚ) - Portable.CLAMP16F (((1 : S16).toInt : ℚ) * 0x4000)| <
      1 + max (|((1 : S16).toInt : ℚ)| / 2 ^ 17) (|((1 : S16).toInt : ℚ) * 0x4000| / 2 ^ 14) := by
  have hscaled : scaledGain 0x4000 = (0x4000, 0) := by
    have hloop : gainLoop 17 ((0x4000 : ℚ) * 1, 0) = (0x4000 * 1, 0) := by
      unfold gainLoop
      exact if_neg (by norm_num)
    show ((gainLoop 17 (0x4000 * (if (0x4000 : ℚ) < 0 then -1 else 1), 0)).1 *
      (if (0x4000 : ℚ) < 0 then -1 else 1),
      (gainLoop 17 (0x4000 * (if (0x4000 : ℚ) < 0 then -1 else 1), 0)).2) = _
    rw [if_neg (by norm_num), hloop]
    norm_num
  have htruncate : truncate 0x4000 = 0x4000 := by exact_mod_cast truncate_intCast 0x4000
  obtain ⟨d, hd⟩ : ∃ d, GccMmx.pdpImageprocGainSetgain 0x4000 = some d := by
    unfold GccMmx.pdpImageprocGainSetgain s16Of
    rw [hscaled, htruncate, if_pos (by decide)]
    exact ⟨_, rfl⟩
  obtain ⟨e, he, hexact, -⟩ := gain_agrees hd
  exact ⟨e, he, hexact 1⟩

end PureDataPacket
