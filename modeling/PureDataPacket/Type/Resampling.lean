/-
# `PureDataPacket.Type.Resampling` — grey and multi-channel images of other sizes

`_pdp_packet_image_convert_resample_multi` takes the dimensions of its result, and the number of
planes that it resamples, from the destination template.  The source is not asked how many planes
it has.

Every pixel of the result is computed from two by two pixels of the source, and the later it is
the further behind they are: the last pixel of the last plane decides.

| | |
| :-- | :-- |
| `PixelFits` | what a pixel needs |
| `PixelFits.mono` | the pixels that come before a pixel need no more than it does |
| `PlanesReach` | the last pixel of the last plane has what it needs |
| `ResampleSafe` | what should be |
-/
import PureDataPacket.Type.Channels

namespace PureDataPacket

/-! ## Loops with a body that may be undefined -/

section Loops

variable {n m m' : Nat} {x y : Int} {body : Nat → Option (List Step)}

/-- A loop that is defined and stays inside two buffers. -/
theorem fits_stepsForM : (∃ l, stepsForM n body = some l ∧ Fits (l.map (.shift x y)) m m') ↔
    ∀ k < n, ∃ l, body k = some l ∧ Fits (l.map (.shift x y)) m m' := by
  induction n with
  | zero => exact iff_of_true ⟨[], rfl, fun st hst => by cases hst⟩ fun k hk => by omega
  | succ n ih =>
      constructor
      · rintro ⟨l, hl, hfits⟩ k hk
        obtain ⟨l₁, h₁, hl⟩ := Option.bind_eq_some_iff.mp hl
        obtain ⟨l₂, h₂, hl⟩ := Option.bind_eq_some_iff.mp hl
        rw [← Option.some.inj hl, List.map_append, fits_append] at hfits
        rcases Nat.lt_succ_iff_lt_or_eq.mp hk with hlt | rfl
        · exact ih.mp ⟨l₁, h₁, hfits.1⟩ k hlt
        · exact ⟨l₂, h₂, hfits.2⟩
      · intro hall
        obtain ⟨l₁, h₁, hfits₁⟩ := ih.mpr fun k hk => hall k (Nat.lt_succ_of_lt hk)
        obtain ⟨l₂, h₂, hfits₂⟩ := hall n (Nat.lt_succ_self n)
        refine ⟨l₁ ++ l₂, ?_, ?_⟩
        · rw [stepsForM, h₁, h₂]
          rfl
        · rw [List.map_append, fits_append]
          exact ⟨hfits₁, hfits₂⟩

theorem fits_planes : (∃ l, stepsForM n body = some l ∧ Fits l m m') ↔
    ∀ k < n, ∃ l, body k = some l ∧ Fits l m m' := by
  have h := @fits_stepsForM n m m' 0 0 body
  have hzero : ∀ l : List Step, l.map (.shift 0 0) = l := map_shift_zero
  simp only [hzero] at h
  exact h

end Loops

/-! ## One pixel -/

/-- The virtual coordinate of the last of `n` pixels. -/
def lastVirtual (n : Nat) : Nat := (n - 1) * (2 ^ 30 / n) / 2 ^ 14

/-- What the pixel at virtual coordinates `x` and `y` needs: `int`s on the way, and that its two
by two pixels, behind `off` others, are in `size` bytes. -/
structure PixelFits (w h : Int) (x y off : Int) (size : Nat) : Prop where
  fpX : IsInt (x * (w - 1))
  fpY : IsInt (y * (h - 1))
  rows : IsInt (y * (h - 1) / 2 ^ 16 * w)
  reads : ∀ i ∈ ([0, 1, w, w + 1] : List Int),
    s16.Within size (off + (x * (w - 1) / 2 ^ 16 + y * (h - 1) / 2 ^ 16 * w + i))

section Pixel

variable {w h x y dst off off' : Int} {size n : Nat}

theorem fits_pdpResampleBilin (hx : 0 ≤ x) (hx' : x < 2 ^ 16) (hy : 0 ≤ y) (hy' : y < 2 ^ 16) :
    (∃ l, pdpResampleBilin w h x y dst = some l ∧ Fits (l.map (.shift off off')) size n) ↔
      PixelFits w h x y off size ∧ s16.Within n (off' + dst) := by
  have hmodX : x % 2 ^ 16 = x := Int.emod_eq_of_lt hx hx'
  have hmodY : y % 2 ^ 16 = y := Int.emod_eq_of_lt hy hy'
  unfold pdpResampleBilin
  rw [hmodX, hmodY]
  constructor
  · rintro ⟨l, hl, hfits⟩
    obtain ⟨_, hfpX, hl⟩ := Option.bind_eq_some_iff.mp hl
    obtain ⟨_, hfpY, hl⟩ := Option.bind_eq_some_iff.mp hl
    obtain ⟨_, hrows, hl⟩ := Option.bind_eq_some_iff.mp hl
    obtain ⟨hintX, rfl⟩ := intMul_eq_some.mp hfpX
    obtain ⟨hintY, rfl⟩ := intMul_eq_some.mp hfpY
    obtain ⟨hintR, rfl⟩ := intMul_eq_some.mp hrows
    rw [← Option.some.inj hl, fits_map_shift] at hfits
    obtain ⟨hloads, hstore⟩ := hfits _ (List.mem_singleton_self _)
    refine ⟨⟨hintX, hintY, hintR, fun i hi => ?_⟩, hstore⟩
    simp only [List.mem_cons, List.not_mem_nil, or_false] at hi
    simp only [List.forall_mem_cons] at hloads
    rcases hi with rfl | rfl | rfl | rfl
    · rw [Int.add_zero]
      exact hloads.1
    · exact hloads.2.1
    · exact hloads.2.2.1
    · have hload := hloads.2.2.2.1
      rwa [Int.add_assoc _ w 1] at hload
  · rintro ⟨⟨hintX, hintY, hintR, hreads⟩, hstore⟩
    refine ⟨_, Option.bind_eq_some_iff.mpr ⟨_, intMul_eq_some.mpr ⟨hintX, rfl⟩,
      Option.bind_eq_some_iff.mpr ⟨_, intMul_eq_some.mpr ⟨hintY, rfl⟩,
        Option.bind_eq_some_iff.mpr ⟨_, intMul_eq_some.mpr ⟨hintR, rfl⟩, rfl⟩⟩⟩, ?_⟩
    refine fits_map_shift.mpr fun st hst => ?_
    rw [List.mem_singleton.mp hst]
    refine ⟨?_, hstore⟩
    simp only [List.forall_mem_cons, List.not_mem_nil, false_imp_iff, implies_true, and_true,
      Int.add_zero] at hreads ⊢
    rw [Int.add_assoc _ w 1]
    exact hreads

theorem PixelFits.mono {x' y' : Int} (hw : 2 ≤ w) (hx : 0 ≤ x) (hxx' : x ≤ x') (hy : 0 ≤ y)
    (hyy' : y ≤ y') (hlast : 0 ≤ y' * (h - 1)) (h0 : 0 ≤ off) (hoff : off ≤ off')
    (hfits : PixelFits w h x' y' off' size) : PixelFits w h x y off size := by
  obtain ⟨hintX, hintY, hintR, hreads⟩ := hfits
  have hX0 : 0 ≤ x * (w - 1) := Int.mul_nonneg hx (by omega)
  have hX : x * (w - 1) ≤ x' * (w - 1) := Int.mul_le_mul_of_nonneg_right hxx' (by omega)
  have hY : 0 ≤ y * (h - 1) ∧ y * (h - 1) ≤ y' * (h - 1) := by
    rcases Int.lt_or_le (h - 1) 0 with hneg | hpos
    · -- A height that is no `int` is negative: then only the first row is right.
      have hy'0 : y' = 0 := by
        rcases Int.lt_or_eq_of_le (hy.trans hyy') with hlt | heq
        · have := Int.mul_neg_of_pos_of_neg hlt hneg
          omega
        · exact heq.symm
      have hy0 : y = 0 := by omega
      rw [hy'0, hy0]
      omega
    · exact ⟨Int.mul_nonneg hy hpos, Int.mul_le_mul_of_nonneg_right hyy' hpos⟩
  have hR0 : 0 ≤ y * (h - 1) / 2 ^ 16 * w := Int.mul_nonneg (by omega) (by omega)
  have hR : y * (h - 1) / 2 ^ 16 * w ≤ y' * (h - 1) / 2 ^ 16 * w :=
    Int.mul_le_mul_of_nonneg_right (by omega) (by omega)
  have hxdiv : x * (w - 1) / 2 ^ 16 ≤ x' * (w - 1) / 2 ^ 16 := by omega
  have hxdiv0 : 0 ≤ x * (w - 1) / 2 ^ 16 := by omega
  refine ⟨⟨by omega, ?_⟩, ⟨by omega, ?_⟩, ⟨by omega, ?_⟩, fun i hi => ?_⟩
  · have := hintX.2
    omega
  · have := hintY.2
    omega
  · have := hintR.2
    omega
  · have hread := within_s16.mp (hreads i hi)
    simp only [List.mem_cons, List.not_mem_nil, or_false] at hi
    rw [within_s16]
    omega

end Pixel

/-! ## One plane -/

/-- The virtual coordinate of pixel `i` of `n`. -/
def virtualOf (n i : Nat) : Nat := i * (2 ^ 30 / n) / 2 ^ 14

section Plane

variable {w h off off' : Int} {size n dw dh i : Nat}

theorem scaleOf_natCast (h0 : 0 < n) : scaleOf n = some ((2 ^ 30 / n : Nat) : Int) := by
  unfold scaleOf
  rw [if_neg (by omega), Int.tdiv_eq_ediv_of_nonneg (by decide), Int.natCast_ediv]
  rfl

theorem virtualOf_lt (hi : i < n) : virtualOf n i < 2 ^ 16 := by
  have hlt : i * (2 ^ 30 / n) < 2 ^ 30 := by
    rcases Nat.eq_zero_or_pos (2 ^ 30 / n) with h0 | hpos
    · rw [h0, Nat.mul_zero]
      decide
    · calc i * (2 ^ 30 / n) < n * (2 ^ 30 / n) := Nat.mul_lt_mul_of_pos_right hi hpos
        _ ≤ 2 ^ 30 := Nat.mul_div_le (2 ^ 30) n
  unfold virtualOf
  omega

theorem virtualOf_le (hi : i < n) : virtualOf n i ≤ lastVirtual n :=
  Nat.div_le_div_right (Nat.mul_le_mul_right _ (by omega))

theorem virtualOf_last : virtualOf n (n - 1) = lastVirtual n := rfl

theorem fits_pdpResampleScaleBilin (hdw : 0 < dw) (hdh : 0 < dh) :
    (∃ l, pdpResampleScaleBilin w h dw dh = some l ∧ Fits (l.map (.shift off off')) size n) ↔
      ∀ j < dh, ∀ i < dw, PixelFits w h (virtualOf dw i) (virtualOf dh j) off size ∧
        s16.Within n (off' + (dw * j + i)) := by
  have hvirtual : ∀ n i : Nat, (i : Int) * (2 ^ 30 / n : Nat) / 2 ^ 14 = (virtualOf n i : Nat) := by
    intro n i
    unfold virtualOf
    rw [← Nat.cast_mul]
    omega
  unfold pdpResampleScaleBilin
  rw [scaleOf_natCast hdw, scaleOf_natCast hdh, Option.bind_eq_bind, Option.bind_some,
    Option.bind_some, Int.toNat_natCast, Int.toNat_natCast, fits_stepsForM]
  refine forall_congr' fun j => forall_congr' fun hj => ?_
  rw [fits_stepsForM]
  refine forall_congr' fun i => forall_congr' fun hi => ?_
  have hx := virtualOf_lt hi
  have hy := virtualOf_lt hj
  rw [hvirtual, hvirtual]
  exact fits_pdpResampleBilin (by omega) (by omega) (by omega) (by omega)

/-- Nothing is resampled to an image with a negative dimension. -/
theorem pdpResampleScaleBilin_neg {dstW dstH : Int} (hw : dstW ≠ 0) (hh : dstH ≠ 0)
    (hneg : dstW < 0 ∨ dstH < 0) : pdpResampleScaleBilin w h dstW dstH = some [] := by
  have hempty : ∀ n : Nat, (stepsForM n fun _ => some []) = some [] := by
    intro n
    induction n with
    | zero => rfl
    | succ n ih =>
        rw [stepsForM, ih]
        rfl
  unfold pdpResampleScaleBilin scaleOf
  rw [if_neg hw, if_neg hh]
  rcases hneg with hneg | hneg
  · rw [Int.toNat_of_nonpos (Int.le_of_lt hneg)]
    exact hempty dstH.toNat
  · rw [Int.toNat_of_nonpos (Int.le_of_lt hneg)]
    rfl

end Plane

/-! ## All planes -/

/-- The last pixel of the last plane has what it needs. -/
structure PlanesReach (w h dw dh planes size n : Nat) : Prop where
  width : w < 2 ^ 31
  rows : 0 ≤ (lastVirtual dh : Int) * (toInt32 h - 1)
  last : PixelFits (toInt32 w) (toInt32 h) (lastVirtual dw) (lastVirtual dh)
    ((planes - 1 : Nat) * u32 (w * h)) size
  store : 2 * (planes * (dw * dh)) ≤ n

section Planes

variable {w h dw dh planes size n : Nat}

theorem planesReach_iff (hw : 2 ≤ w) (hw' : w < 2 ^ 32) (hdw : 0 < dw) (hdh : 0 < dh)
    (hplanes : 0 < planes) :
    (∀ k < planes, ∀ j < dh, ∀ i < dw, PixelFits (toInt32 w) (toInt32 h) (virtualOf dw i)
        (virtualOf dh j) (k * u32 (w * h)) size ∧
      s16.Within n (k * (dw * dh : Nat) + (dw * j + i))) ↔ PlanesReach w h dw dh planes size n := by
  have hzero : ∀ n, virtualOf n 0 = 0 := fun n => by
    unfold virtualOf
    rw [Nat.zero_mul, Nat.zero_div]
  constructor
  · intro hall
    have hwidth : toInt32 w = w ∧ w < 2 ^ 31 := by
      have hread := (hall 0 hplanes 0 hdh 0 hdw).1.reads (toInt32 w) (by simp)
      rw [hzero, hzero, within_s16] at hread
      have hcases := toInt32_cases hw'
      simp only [Nat.cast_zero, Int.zero_mul, Int.zero_ediv, Int.zero_add] at hread
      omega
    have hrows : 0 ≤ (lastVirtual dh : Int) * (toInt32 h - 1) := by
      have hread := (hall 0 hplanes (dh - 1) (by omega) 0 hdw).1.reads 0 (by simp)
      rw [hzero, virtualOf_last, within_s16] at hread
      simp only [Nat.cast_zero, Int.zero_mul, Int.zero_ediv, Int.zero_add, Int.add_zero] at hread
      by_contra hneg
      have hdiv : (lastVirtual dh : Int) * (toInt32 h - 1) / 2 ^ 16 < 0 := by omega
      have := Int.mul_neg_of_neg_of_pos hdiv (show 0 < toInt32 w by omega)
      omega
    have hlast := hall (planes - 1) (by omega) (dh - 1) (by omega) (dw - 1) (by omega)
    have hstore := (within_s16.mp hlast.2).2
    have hcount : dw * (dh - 1) + (dw - 1) + 1 = dw * dh := by
      have := Nat.mul_succ dw (dh - 1)
      rw [Nat.succ_eq_add_one, Nat.sub_add_cancel hdh] at this
      omega
    have hend : (planes - 1) * (dw * dh) + dw * dh = planes * (dw * dh) := by
      rw [← Nat.succ_mul, Nat.succ_eq_add_one, Nat.sub_add_cancel hplanes]
    refine ⟨hwidth.2, hrows, hlast.1, ?_⟩
    have hcast : ((planes - 1 : Nat) : Int) * (dw * dh : Nat) +
        ((dw : Int) * (dh - 1 : Nat) + (dw - 1 : Nat)) =
          ((planes - 1) * (dw * dh) + (dw * (dh - 1) + (dw - 1)) : Nat) := by push_cast; rfl
    rw [hcast] at hstore
    omega
  · rintro ⟨hwidth, hrows, hlast, hstore⟩ k hk j hj i hi
    have htoInt : toInt32 w = w := toInt32_of_nat_lt hwidth
    have hi' := virtualOf_le hi
    have hj' := virtualOf_le hj
    have hW : 2 ≤ toInt32 w := by
      rw [htoInt]
      exact Int.ofNat_le.mpr hw
    have hoff : (k : Int) * u32 (w * h) ≤ (planes - 1 : Nat) * u32 (w * h) :=
      Int.mul_le_mul_of_nonneg_right (Int.ofNat_le.mpr (Nat.le_sub_one_of_lt hk))
        (Int.natCast_nonneg _)
    refine ⟨hlast.mono hW (Int.natCast_nonneg _) (Int.ofNat_le.mpr hi') (Int.natCast_nonneg _)
      (Int.ofNat_le.mpr hj') hrows
      (Int.mul_nonneg (Int.natCast_nonneg _) (Int.natCast_nonneg _)) hoff, ?_⟩
    have hpixel : dw * j + i < dw * dh := add_mul_lt hj hi
    have hle : (k + 1) * (dw * dh) ≤ planes * (dw * dh) := Nat.mul_le_mul_right _ hk
    rw [Nat.succ_mul] at hle
    have hcast : (k : Int) * (dw * dh : Nat) + ((dw : Int) * j + i) =
        (k * (dw * dh) + (dw * j + i) : Nat) := by push_cast; rfl
    rw [within_s16, hcast]
    omega

variable {dstW dstH depth : Int}

theorem fits_resampleMulti (hw : 2 ≤ w) (hw' : w < 2 ^ 32) (hdepth : depth ≠ 0) :
    (∃ l, resampleMulti w h dstW dstH depth = some l ∧ Fits l size n) ↔
      IsInt (dstW * dstH) ∧ 0 < depth ∧ dstW ≠ 0 ∧ dstH ≠ 0 ∧ (0 < dstW → 0 < dstH →
        PlanesReach w h dstW.toNat dstH.toNat depth.toNat size n) := by
  unfold resampleMulti
  by_cases hint : IsInt (dstW * dstH)
  swap
  · have hnone : intMul dstW dstH = none := if_neg hint
    rw [hnone]
    exact iff_of_false (by rintro ⟨l, hl, _⟩; cases hl) fun h => hint h.1
  have hmul : intMul dstW dstH = some (dstW * dstH) := intMul_eq_some.mpr ⟨hint, rfl⟩
  rw [hmul, Option.bind_eq_bind, Option.bind_some]
  rcases Int.lt_or_lt_of_ne hdepth with hneg | hpos
  · rw [if_pos hneg]
    exact iff_of_false (by rintro ⟨l, hl, _⟩; cases hl) fun h => by omega
  rw [if_neg (by omega), fits_planes]
  have hplane : ∀ k : Nat, (∃ l, (do
      let l ← pdpResampleScaleBilin (toInt32 w) (toInt32 h) dstW dstH
      pure (l.map (.shift (k * u32 (w * h)) (k * ofInt32 (dstW * dstH)))) : Option (List Step)) =
        some l ∧ Fits l size n) ↔ ∃ l, pdpResampleScaleBilin (toInt32 w) (toInt32 h) dstW dstH =
          some l ∧ Fits (l.map (.shift (k * u32 (w * h)) (k * ofInt32 (dstW * dstH)))) size n := by
    intro k
    cases pdpResampleScaleBilin (toInt32 w) (toInt32 h) dstW dstH with
    | none => exact iff_of_false (by rintro ⟨l, hl, _⟩; cases hl) (by rintro ⟨l, hl, _⟩; cases hl)
    | some l₀ =>
        constructor
        · rintro ⟨l, hl, hfits⟩
          exact ⟨l₀, rfl, Option.some.inj hl ▸ hfits⟩
        · rintro ⟨l, hl, hfits⟩
          exact ⟨_, rfl, Option.some.inj hl ▸ hfits⟩
  simp only [hplane]
  by_cases hzero : dstW = 0 ∨ dstH = 0
  · -- A division by zero.
    have hnone : pdpResampleScaleBilin (toInt32 w) (toInt32 h) dstW dstH = none := by
      unfold pdpResampleScaleBilin scaleOf
      rcases hzero with h0 | h0
      · rw [if_pos h0]
        rfl
      · rw [if_pos h0]
        split <;> rfl
    refine iff_of_false (fun hall => ?_) fun h => ?_
    · obtain ⟨l, hl, _⟩ := hall 0 (by omega)
      rw [hnone] at hl
      cases hl
    · rcases hzero with h0 | h0
      · exact h.2.2.1 h0
      · exact h.2.2.2.1 h0
  push Not at hzero
  obtain ⟨hW0, hH0⟩ := hzero
  simp only [hint, hpos, hW0, hH0, ne_eq, not_false_eq_true, true_and]
  rcases Int.lt_or_lt_of_ne hW0 with hneg | hW
  · refine iff_of_true (fun k _ => ⟨[], pdpResampleScaleBilin_neg hW0 hH0 (Or.inl hneg), ?_⟩)
      fun h => by omega
    exact fun st hst => by cases hst
  rcases Int.lt_or_lt_of_ne hH0 with hneg | hH
  · refine iff_of_true (fun k _ => ⟨[], pdpResampleScaleBilin_neg hW0 hH0 (Or.inr hneg), ?_⟩)
      fun _ h => by omega
    exact fun st hst => by cases hst
  lift dstW to Nat using Int.le_of_lt hW
  lift dstH to Nat using Int.le_of_lt hH
  lift depth to Nat using Int.le_of_lt hpos
  have hsize : ofInt32 ((dstW : Int) * dstH) = dstW * dstH := by
    rw [← Nat.cast_mul]
    have hlt := hint.2
    rw [← Nat.cast_mul] at hlt
    exact ofInt32_of_nat_lt (by omega)
  simp only [hsize, Int.toNat_natCast, hW, hH, true_imp_iff]
  rw [← planesReach_iff hw hw' (by omega) (by omega) (by omega)]
  refine forall_congr' fun k => forall_congr' fun _ => ?_
  exact fits_pdpResampleScaleBilin (by omega) (by omega)

end Planes

/-! ## The method -/

/-- When resampling an image of `size` bytes stays inside it and inside the new packet: the packet
cannot be made, or a negative dimension leaves nothing to do, or the last pixel fits. -/
def ResampleSafe (w h size : Nat) (dstW dstH depth : Int) : Prop :=
  let planes := if depth = 0 then 1 else depth
  let n := if depth = 0 then imageSizeGrey (ofInt32 dstW) (ofInt32 dstH)
    else imageSizeMchp (ofInt32 dstW) (ofInt32 dstH) (ofInt32 depth)
  SafeFor n (IsInt (dstW * dstH) ∧ 0 < planes ∧ dstW ≠ 0 ∧ dstH ≠ 0 ∧ (0 < dstW → 0 < dstH →
    PlanesReach w h dstW.toNat dstH.toNat planes.toNat size n))

section Method

variable {k : PacketKind} {w h d : Nat} {p : Packet} {template : Symbol}

/-- When `_pdp_packet_image_convert_resample_multi` is safe, for any template. -/
theorem resampleMulti_iff (hp : Built k w h d p) (hu : 0 < p.users) (hw : 2 ≤ w) :
    InBounds (fun packet => pdpPacketImageConvertResampleMulti packet template) p ↔
      ∃ dims, pdpDescriptionGetDims template = some dims ∧
        ResampleSafe w h (k.dataSize w h d) (dims.getD 0 0) (dims.getD 1 0) (dims.getD 2 0) := by
  refine (inBounds_congr fun s packet hheld => run_withHeader hheld _).trans ?_
  refine (inBounds_checked_iff hu).trans ?_
  refine exists_congr fun dims => and_congr_right fun _ => ?_
  unfold ResampleSafe
  dsimp only
  by_cases hdepth : dims.getD 2 0 = 0
  · simp only [hdepth, if_true]
    refine (inBounds_convertInto (PacketKind.imageGrey.constructs (ofInt32 (dims.getD 0 0))
      (ofInt32 (dims.getD 1 0)) 0) (PacketKind.imageGrey.dataSize_lt _ _ _) hu _).trans ?_
    refine safeFor_congr fun _ => ?_
    rw [hp.width, hp.height, hp.size]
    exact fits_resampleMulti hw hp.width_lt Int.one_ne_zero
  · simp only [hdepth, if_false]
    refine (inBounds_convertInto (PacketKind.imageMulti.constructs (ofInt32 (dims.getD 0 0))
      (ofInt32 (dims.getD 1 0)) (ofInt32 (dims.getD 2 0)))
      (PacketKind.imageMulti.dataSize_lt _ _ _) hu _).trans ?_
    refine safeFor_congr fun _ => ?_
    rw [hp.width, hp.height, hp.size]
    exact fits_resampleMulti hw hp.width_lt hdepth

/-- Two by two grey pixels, made three pixels wide. -/
theorem resampleMulti_iff_grey :
    InBounds (fun packet => pdpPacketImageConvertResampleMulti packet "image/grey/3x2".toList)
        (builtPacket .imageGrey 2 2 0 ⟨[1, 0, 2, 0, 3, 0, 4, 0], by decide⟩) ↔
      ∃ dims, pdpDescriptionGetDims "image/grey/3x2".toList = some dims ∧
        ResampleSafe 2 2 (PacketKind.imageGrey.dataSize 2 2 0) (dims.getD 0 0) (dims.getD 1 0)
          (dims.getD 2 0) :=
  resampleMulti_iff (built_header (by decide) (by decide) (by decide) (by decide)) Nat.one_pos
    (by decide)

/-- One plane, and a template that asks for two. -/
theorem not_resampleMulti : Built .imageMulti 2 2 1
      (builtPacket .imageMulti 2 2 1 ⟨[1, 0, 2, 0, 3, 0, 4, 0], by decide⟩) ∧
    ¬ InBounds (fun packet => pdpPacketImageConvertResampleMulti packet "image/multi/2x2x2".toList)
      (builtPacket .imageMulti 2 2 1 ⟨[1, 0, 2, 0, 3, 0, 4, 0], by decide⟩) := by
  refine ⟨built_header (by decide) (by decide) (by decide) (by decide), fun hin => ?_⟩
  have hchecked := (inBounds_congr fun s packet hheld => run_withHeader hheld _).mp hin
  obtain ⟨dims, hdims, hinto⟩ := (inBounds_checked_iff Nat.one_pos).mp hchecked
  have htwo : pdpDescriptionGetDims "image/multi/2x2x2".toList = some [2, 2, 2] := by decide
  obtain rfl := Option.some.inj (htwo.symm.trans hdims)
  have hsafe := (inBounds_convertInto (PacketKind.imageMulti.constructs 2 2 2)
    (PacketKind.imageMulti.dataSize_lt 2 2 2) Nat.one_pos _).mp hinto
  rcases hsafe with hrefused | ⟨_, hfits⟩
  · exact absurd hrefused.1 (by decide)
  · obtain ⟨_, _, _, _, hreach⟩ := (fits_resampleMulti (by decide) (by decide) (by decide)).mp hfits
    have hread := (hreach (by decide) (by decide)).last.reads 0 (by decide)
    exact absurd (within_s16.mp hread).2 (by decide)

end Method

end PureDataPacket
