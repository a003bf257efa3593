/-
# `PureDataPacket.Type.Bounds` — which pixel format conversions stay in bounds

The methods that go through `pdp_llconv`.  Those that convert sample by sample are safe
for all dimensions whose product is an `int`; those that work on blocks of 2x2 pixels are
safe for even dimensions only: with an odd one the last block is half outside.
-/
import Mathlib.Tactic.Ring
import PureDataPacket.Type.Contract

namespace PureDataPacket

/-! ## Sizes -/

/-- The product of two dimensions, as an `int` and as a `u32`. -/
theorem ofInt32_area (w h : Nat) : ofInt32 (toInt32 w * toInt32 h) = u32 (w * h) := by
  have hmod : (toInt32 w * toInt32 h) % 2 ^ 32 = ((w * h : Nat) : Int) % 2 ^ 32 := by
    have hw : toInt32 w % 2 ^ 32 = (w : Int) % 2 ^ 32 := Int.bmod_emod
    have hh : toInt32 h % 2 ^ 32 = (h : Int) % 2 ^ 32 := Int.bmod_emod
    rw [Int.mul_emod, hw, hh, ← Int.mul_emod, Int.natCast_mul]
  unfold ofInt32 u32
  rw [hmod]
  omega

/-- A product that is an `int`, beside the one that is a `u32`. -/
theorem area_cases {w h : Nat} (hint : IsInt (toInt32 w * toInt32 h)) :
    (0 ≤ toInt32 w * toInt32 h ∧ (u32 (w * h) : Int) = toInt32 w * toInt32 h ∧
        u32 (w * h) < 2 ^ 31) ∨
      (toInt32 w * toInt32 h < 0 ∧ (u32 (w * h) : Int) = toInt32 w * toInt32 h + 2 ^ 32 ∧
        2 ^ 31 ≤ u32 (w * h)) := by
  obtain ⟨hlo, hhi⟩ := hint
  have harea := ofInt32_eq (toInt32 w * toInt32 h)
  rw [ofInt32_area] at harea
  omega

/-! ## Copies -/

section Copies

variable {n m m' : Nat}

theorem fits_llconvGreyS16u8 : Fits (llconvGreyS16u8 n) m m' ↔ 2 * n ≤ m ∧ n ≤ m' := by
  have h : Fits (llconvGreyS16u8 n) m m' ↔ 2 * n ≤ m ∧ 1 * n ≤ m' := fits_mapSteps
  rwa [Nat.one_mul] at h

theorem fits_llconvYvuPlanarS16u8 : Fits (llconvYvuPlanarS16u8 n) m m' ↔
    2 * (n + n / 2) ≤ m ∧ n + n / 2 ≤ m' := by
  have hluma : Fits (pixelPackS16u8Y n) m m' ↔ 2 * n ≤ m ∧ 1 * n ≤ m' := fits_mapSteps
  have hchroma : Fits ((pixelPackS16u8Uv (n / 2)).map (.shift n n)) m m' ↔ _ :=
    fits_shift_mapSteps
  unfold llconvYvuPlanarS16u8
  rw [fits_append, hluma, hchroma]
  simp only [within_s16, within_u8]
  constructor
  · rintro ⟨hl, hc⟩
    rcases Nat.eq_zero_or_pos (n / 2) with h0 | hpos
    · omega
    · have := hc (n / 2 - 1) (by omega)
      omega
  · intro h
    exact ⟨by omega, fun k hk => by omega⟩

theorem fits_llconvYvuPlanarU8s16 (hn : n < 2 ^ 31) :
    Fits (llconvYvuPlanarU8s16 n) m m' ↔ n + n / 2 ≤ m ∧ 2 * (n + n / 2) ≤ m' := by
  have hluma : Fits (pixelUnpackU8s16Y n) m m' ↔ 1 * n ≤ m ∧ 2 * n ≤ m' := fits_mapSteps
  have hchroma : Fits ((pixelUnpackU8s16Uv (n / 2)).map (.shift n n)) m m' ↔ _ :=
    fits_shift_mapSteps
  have h0 : ofInt32 (n : Int) = n := ofInt32_of_nat_lt (by omega)
  have h1 : ofInt32 ((n : Int) / 2) = n / 2 := by
    have := ofInt32_of_nat_lt (n := n / 2) (by omega)
    exact_mod_cast this
  unfold llconvYvuPlanarU8s16
  rw [fits_append, h0, h1, hluma, hchroma]
  simp only [within_s16, within_u8]
  constructor
  · rintro ⟨hl, hc⟩
    rcases Nat.eq_zero_or_pos (n / 2) with h0 | hpos
    · omega
    · have := hc (n / 2 - 1) (by omega)
      omega
  · intro h
    exact ⟨by omega, fun k hk => by omega⟩

end Copies

/-! ## Blocks -/

theorem fits_blocks {a b : Int} {body : Nat → Int → List Step} {n m : Nat} :
    (∃ l, forRows (a * b) (a * 2) (fun row => stepsUpTo a 2 (body row)) = some l ∧ Fits l n m) ↔
      a * b ≤ 0 ∨ 0 < a ∧ 0 < b ∧ ∀ row j : Nat, 2 * row < b → 2 * j < a →
        Fits (body row (2 * j)) n m := by
  unfold forRows
  by_cases hpos : 0 < a * b
  · by_cases ha : 0 < a
    · have hb : 0 < b := by
        by_contra hb
        have := Int.mul_nonpos_of_nonneg_of_nonpos (Int.le_of_lt ha) (Int.not_lt.mp hb)
        omega
      have hrow : ∀ row : Nat, row < iterations (a * b) (a * 2) ↔ 2 * row < b := by
        intro row
        rw [lt_iterations (by omega), Int.mul_assoc, Int.mul_lt_mul_left ha]
      rw [if_neg (by omega)]
      simp only [Option.some.injEq, exists_eq_left', fits_stepsFor, hrow,
        fits_stepsUpTo (show (0 : Int) < 2 by omega)]
      constructor
      · intro h
        exact Or.inr ⟨ha, hb, fun row j hr hj => h row hr j hj⟩
      · rintro (h | ⟨_, _, h⟩)
        · omega
        · exact fun row hr j hj => h row j hr hj
    · rw [if_pos ⟨hpos, by omega⟩]
      refine iff_of_false ?_ (by omega)
      rintro ⟨l, hl, _⟩
      cases hl
  · have hnone : iterations (a * b) (a * 2) = 0 := if_pos (by omega)
    rw [if_neg (by omega), hnone]
    exact iff_of_true ⟨_, rfl, fun st hst => by cases hst⟩ (Or.inl (by omega))

theorem even_of_last {a b : Int} (ha : 0 < a)
    (h : a * 2 * ((b - 1) / 2) + 2 * ((a - 1) / 2) + a + 1 < a * b) : a % 2 = 0 ∧ b % 2 = 0 := by
  have hodd : b % 2 = 0 := by
    by_contra hne
    have hb' : b = 2 * ((b - 1) / 2) + 1 := by omega
    have hmul : a * b = a * 2 * ((b - 1) / 2) + a := by
      conv_lhs => rw [hb']
      ring
    omega
  refine ⟨?_, hodd⟩
  have hb' : b = 2 * ((b - 1) / 2) + 2 := by omega
  have hmul : a * b = a * 2 * ((b - 1) / 2) + a * 2 := by
    conv_lhs => rw [hb']
    ring
  omega

/-- The dimensions for which the routines that work on blocks stay inside. -/
def BlocksFit (a b : Int) : Prop :=
  IsInt (a * b) ∧ IsInt (a * 3) ∧
    (a * b ≤ 0 ∨ 0 < a ∧ 0 < b ∧ a % 2 = 0 ∧ b % 2 = 0 ∧ 3 * (a * b) < 2 ^ 32)

/-- A block in even dimensions: where its pixels and its chroma sample are. -/
theorem block_inside {a b : Int} (ha : a % 2 = 0) (hb : b % 2 = 0) {row j : Nat}
    (hrow : 2 * row < b) (hj : 2 * j < a) : ∃ area block : Int, a * b = 4 * area ∧
      a * 2 * row = 4 * block ∧ 0 ≤ block ∧ 4 * block + 2 * a ≤ 4 * area := by
  have ha' : a = 2 * (a / 2) := by omega
  have hb' : b = 2 * (b / 2) := by omega
  refine ⟨a / 2 * (b / 2), a / 2 * row, ?_, ?_, Int.mul_nonneg (by omega) (by omega), ?_⟩
  · conv_lhs => rw [ha', hb']
    ring
  · conv_lhs => rw [ha']
    ring
  · have hle : a / 2 * (row + 1) ≤ a / 2 * (b / 2) :=
      Int.mul_le_mul_of_nonneg_left (by omega) (by omega)
    rw [Int.mul_add, Int.mul_one] at hle
    omega

section Blocks

variable {n m : Nat}

theorem fits_llconvRgbPixel {lum v u rgb : Int} : Fits (llconvRgbPixel lum v u rgb) n m ↔
    (s16.Within n lum ∧ s16.Within n v ∧ s16.Within n u) ∧
      u8.Within m rgb ∧ u8.Within m (rgb + 2) := by
  simp only [llconvRgbPixel, fits_cons, fits_nil, Step.Fits, List.forall_mem_cons, within_u8,
    within_s16, List.not_mem_nil, false_imp_iff, implies_true, and_true]
  omega

/-- From a planar image of 16 bit samples to packed pixels. -/
theorem fits_planar2rgb {a b : Int} {area : Nat} (harea : IsInt (a * b) → area = a * b ∨ a * b < 0)
    (hn : 3 * area < 2 ^ 32 → n = 2 * (area + area / 2)) (hm : m = u32 (area * 3)) :
    (∃ l, llconvYvu16planar2rgbpacked a b = some l ∧ Fits l n m) ↔ BlocksFit a b := by
  unfold llconvYvu16planar2rgbpacked BlocksFit
  by_cases hsize : IsInt (a * b)
  · replace harea := harea hsize
    by_cases hrgbw : IsInt (a * 3)
    · have hsize' : intMul a b = some (a * b) := intMul_eq_some.mpr ⟨hsize, rfl⟩
      have hrgbw' : intMul a 3 = some (a * 3) := intMul_eq_some.mpr ⟨hrgbw, rfl⟩
      simp only [hsize', hrgbw', Option.bind_eq_bind, Option.bind_some, fits_blocks, hsize, hrgbw,
        true_and]
      refine or_congr Iff.rfl (and_congr_right fun ha => and_congr_right fun hb => ?_)
      have hpos : 0 < a * b := Int.mul_pos ha hb
      unfold u32 at hm
      constructor
      · intro h
        have hlast := h ((b - 1) / 2).toNat ((a - 1) / 2).toNat (by omega) (by omega)
        simp only [llconvRgbBlock, fits_append, fits_llconvRgbPixel, within_u8, within_s16] at hlast
        rw [Int.toNat_of_nonneg (by omega), Int.toNat_of_nonneg (by omega)] at hlast
        obtain ⟨heven₁, heven₂⟩ := even_of_last ha (b := b) (by omega)
        refine ⟨heven₁, heven₂, ?_⟩
        have hb' : b = 2 * ((b - 1) / 2) + 2 := by omega
        have hmul : a * b = a * 2 * ((b - 1) / 2) + a * 2 := by
          conv_lhs => rw [hb']
          ring
        omega
      · rintro ⟨heven₁, heven₂, hlt⟩ row j hrow hj
        obtain ⟨quarter, block, hq, hblock, hblock0, hle⟩ := block_inside heven₁ heven₂ hrow hj
        simp only [llconvRgbBlock, fits_append, fits_llconvRgbPixel, within_u8, within_s16, hq,
          hblock]
        omega
    · have hrgbw' : intMul a 3 = none := if_neg hrgbw
      refine iff_of_false ?_ fun h => hrgbw h.2.1
      rintro ⟨l, hl, _⟩
      rw [hrgbw'] at hl
      cases hi : intMul a b with
      | none => rw [hi] at hl; cases hl
      | some _ => rw [hi] at hl; cases hl
  · have hsize' : intMul a b = none := if_neg hsize
    refine iff_of_false ?_ fun h => hsize h.1
    rintro ⟨l, hl, _⟩
    rw [hsize'] at hl
    cases hl

/-- From packed pixels to a planar image of samples of any size. -/
theorem fits_rgb2planar {target : Format} {luma chroma : Int → Int} {a b : Int} {area : Nat}
    (harea : IsInt (a * b) → area = a * b ∨ a * b < 0) (hn : n = u32 (area * 3))
    (hm : 3 * area < 2 ^ 32 → ∀ i : Int, 0 ≤ i → i < area + area / 2 → target.Within m i) :
    (∃ l, llconvRgb2yvu target luma chroma ⟨0, 1, 2, 3⟩ a b = some l ∧ Fits l n m) ↔
      BlocksFit a b := by
  unfold llconvRgb2yvu BlocksFit
  by_cases hsize : IsInt (a * b)
  · replace harea := harea hsize
    by_cases hrgbw : IsInt (a * 3)
    · have hsize' : intMul a b = some (a * b) := intMul_eq_some.mpr ⟨hsize, rfl⟩
      have hrgbw' : intMul a 3 = some (a * 3) := intMul_eq_some.mpr ⟨hrgbw, rfl⟩
      simp only [hsize', hrgbw', Option.bind_eq_bind, Option.bind_some, fits_blocks, hsize, hrgbw,
        true_and]
      refine or_congr Iff.rfl (and_congr_right fun ha => and_congr_right fun hb => ?_)
      have hpos : 0 < a * b := Int.mul_pos ha hb
      unfold u32 at hn
      constructor
      · intro h
        have hlast := h ((b - 1) / 2).toNat ((a - 1) / 2).toNat (by omega) (by omega)
        simp only [llconvYvuBlock, llconvLuma, llconvChroma, RgbLayout.at, fits_cons, fits_nil,
          Step.Fits, List.forall_mem_cons, List.cons_append, List.nil_append, within_u8] at hlast
        rw [Int.toNat_of_nonneg (by omega), Int.toNat_of_nonneg (by omega)] at hlast
        obtain ⟨heven₁, heven₂⟩ := even_of_last ha (b := b) (by omega)
        refine ⟨heven₁, heven₂, ?_⟩
        have hb' : b = 2 * ((b - 1) / 2) + 2 := by omega
        have hmul : a * b = a * 2 * ((b - 1) / 2) + a * 2 := by
          conv_lhs => rw [hb']
          ring
        omega
      · rintro ⟨heven₁, heven₂, hlt⟩ row j hrow hj
        obtain ⟨quarter, block, hq, hblock, hblock0, hle⟩ := block_inside heven₁ heven₂ hrow hj
        have hin := hm (by omega)
        simp only [llconvYvuBlock, llconvLuma, llconvChroma, RgbLayout.at, fits_cons, fits_nil,
          Step.Fits, List.forall_mem_cons, List.cons_append, List.nil_append, within_u8, hq,
          hblock, List.not_mem_nil, false_imp_iff, implies_true, and_true]
        refine ⟨⟨?_, hin _ ?_ ?_⟩, ⟨?_, hin _ ?_ ?_⟩, ⟨?_, hin _ ?_ ?_⟩, ⟨?_, hin _ ?_ ?_⟩,
          ⟨?_, hin _ ?_ ?_⟩, ⟨?_, hin _ ?_ ?_⟩⟩ <;> omega
    · have hrgbw' : intMul a 3 = none := if_neg hrgbw
      refine iff_of_false ?_ fun h => hrgbw h.2.1
      rintro ⟨l, hl, _⟩
      simp only [hrgbw'] at hl
      cases hi : intMul a b with
      | none => rw [hi] at hl; cases hl
      | some _ => rw [hi] at hl; cases hl
  · have hsize' : intMul a b = none := if_neg hsize
    refine iff_of_false ?_ fun h => hsize h.1
    rintro ⟨l, hl, _⟩
    rw [hsize'] at hl
    cases hl

end Blocks

/-! ## The methods -/

/-- The new packet cannot be made, or it is made and `ok` holds. -/
def SafeFor (n : Nat) (ok : Prop) : Prop := Refused n ∨ Fitting n ∧ ok

section Methods

variable {k : PacketKind} {w h d : Nat} {p : Packet}

theorem inBounds_convertInto {make : PoolProg Int} {t n : Nat} {m : Meta}
    (hc : Constructs make t n m) (hn : n < 2 ^ 32) (hu : 0 < p.users) (work : Option (List Step)) :
    InBounds (fun packet => convertInto packet make work) p ↔
      SafeFor n (∃ l, work = some l ∧ Fits l p.data.size n) := by
  have hiff : InBounds (makeAndFill make (some ()) fun _ => work) p ↔ _ :=
    inBounds_makeAndFill_iff hc hn hu
  simp only [convertInto_eq]
  rw [hiff]
  constructor
  · rintro ⟨_, _, h⟩
    exact h
  · intro h
    exact ⟨(), rfl, h⟩

theorem safeFor_congr {n : Nat} {ok ok' : Prop} (hok : Fitting n → (ok ↔ ok')) :
    SafeFor n ok ↔ SafeFor n ok' :=
  or_congr_right' fun _ => and_congr_right hok

/-- A method that makes a packet of another kind, of the same dimensions. -/
theorem inBounds_kind (hu : 0 < p.users) (k' : PacketKind) {code : Int → PoolProg Int}
    {work : Option (List Step)} (hcode : ∀ s packet, Held s packet p → (code packet).run s =
      (convertInto packet (k'.new w h d) work).run s) :
    InBounds code p ↔ SafeFor (k'.dataSize w h d)
      (∃ l, work = some l ∧ Fits l p.data.size (k'.dataSize w h d)) :=
  (inBounds_congr hcode).trans
    (inBounds_convertInto (k'.constructs w h d) (k'.dataSize_lt w h d) hu work)

theorem Built.isvalid (hp : Built k w h d p) (hk : k.type = pdpImage) :
    pdpPacketImageIsvalid p = true := by
  unfold pdpPacketImageIsvalid
  rw [hp.type, hp.encoding]
  cases k with
  | imageYCrCb => decide
  | imageGrey => decide
  | imageMulti => decide
  | bitmapYv12 => cases hk
  | bitmapI420 => cases hk
  | bitmapGrey => cases hk
  | bitmapRgb => cases hk
  | bitmapRgba => cases hk

theorem run_header {s : Pool} {packet : Int} (hp : Held s packet p) (none : PoolProg Int)
    (body : Packet → PoolProg Int) :
    (do match ← PoolProg.call (.header packet) with
        | .none => none
        | some header => body header : PoolProg Int).run s = (body p).run s := by
  have hheader : PoolOp.exec (.header packet) s = .ok (some p, s) := by
    rw [PoolOp.exec, hp.header]
  exact Prog.run_act_ok hheader

/-- Half of the source is its size as `unsigned char`s. -/
theorem inBounds_greyToGrey8 (hp : Built .imageGrey w h d p) (hu : 0 < p.users) :
    InBounds pdpPacketBitmapConvertGreyToGrey8 p ↔
      SafeFor (bitmapSizePacked 1 w h) (IsInt (toInt32 w * toInt32 h)) := by
  have hcode : ∀ s packet, Held s packet p → (pdpPacketBitmapConvertGreyToGrey8 packet).run s =
      (convertInto packet (PacketKind.bitmapGrey.new w h d)
        (pdpLlconv .greyS16 .greyU8 (toInt32 w) (toInt32 h))).run s := by
    intro s packet hheld
    refine (run_header hheld _ _).trans ?_
    rw [hp.isvalid rfl, hp.encoding, hp.width, hp.height]
    rfl
  refine (inBounds_kind hu .bitmapGrey hcode).trans (safeFor_congr fun hfit => ?_)
  have hsize : p.data.size = u32 (u32 (w * h) * 2) := hp.size
  have hnew : PacketKind.bitmapGrey.dataSize w h d = u32 (u32 (w * h) * 1) := rfl
  rw [hnew] at hfit ⊢
  unfold pdpLlconv
  by_cases hint : IsInt (toInt32 w * toInt32 h)
  · have hmul : intMul (toInt32 w) (toInt32 h) = some _ := intMul_eq_some.mpr ⟨hint, rfl⟩
    refine iff_of_true ⟨_, by rw [hmul]; rfl, fits_llconvGreyS16u8.mpr ?_⟩ hint
    rw [ofInt32_area, hsize]
    unfold Fitting at hfit
    unfold u32 at hfit ⊢
    omega
  · have hmul : intMul (toInt32 w) (toInt32 h) = none := if_neg hint
    refine iff_of_false ?_ hint
    rintro ⟨l, hl, _⟩
    rw [hmul] at hl
    cases hl

/-- `pdp_llconv` does nothing. -/
theorem inBounds_grey8ToGrey (hp : Built .bitmapGrey w h d p) (hu : 0 < p.users) :
    InBounds pdpPacketBitmapConvertGrey8ToGrey p ↔ SafeFor (imageSizeGrey w h) True := by
  have hcode : ∀ s packet, Held s packet p → (pdpPacketBitmapConvertGrey8ToGrey packet).run s =
      (convertInto packet (PacketKind.imageGrey.new w h d)
        (pdpLlconv .greyU8 .greyS16 (toInt32 w) (toInt32 h))).run s := by
    intro s packet hheld
    refine (run_withHeader hheld _).trans ?_
    rw [hp.width, hp.height]
    rfl
  refine (inBounds_kind hu .imageGrey hcode).trans (safeFor_congr fun _ => ?_)
  exact iff_of_true ⟨[], rfl, fun st hst => by cases hst⟩ trivial

/-- The product of the dimensions of a packet that exists, as far as it is known. -/
theorem area_of_isInt (hint : IsInt (toInt32 w * toInt32 h)) :
    (u32 (w * h) : Int) = toInt32 w * toInt32 h ∨ toInt32 w * toInt32 h < 0 :=
  (area_cases hint).imp (fun h => h.2.1) fun h => h.1

theorem inBounds_yCrCbToRgb8 (hp : Built .imageYCrCb w h d p) (hu : 0 < p.users) :
    InBounds pdpPacketBitmapConvertYCrCbToRgb8 p ↔
      SafeFor (bitmapSizePacked 3 w h) (BlocksFit (toInt32 w) (toInt32 h)) := by
  have hcode : ∀ s packet, Held s packet p → (pdpPacketBitmapConvertYCrCbToRgb8 packet).run s =
      (convertInto packet (PacketKind.bitmapRgb.new w h d)
        (llconvYvu16planar2rgbpacked (toInt32 w) (toInt32 h))).run s := by
    intro s packet hheld
    refine (run_header hheld _ _).trans ?_
    rw [hp.isvalid rfl, hp.encoding, hp.width, hp.height]
    rfl
  refine (inBounds_kind hu .bitmapRgb hcode).trans (safeFor_congr fun _ => ?_)
  have hsize : p.data.size = u32 (u32 (u32 (w * h) + u32 (w * h) / 2) * 2) := hp.size
  refine fits_planar2rgb area_of_isInt ?_ rfl
  intro hlt
  rw [hsize, u32_eq_self (n := u32 (w * h) + u32 (w * h) / 2) (by omega), u32_eq_self (by omega)]
  omega

theorem inBounds_rgb8ToYCrCb (hp : Built .bitmapRgb w h d p) (hu : 0 < p.users) :
    InBounds pdpPacketBitmapConvertRgb8ToYCrCb p ↔
      SafeFor (imageSizeYCrCb w h) (BlocksFit (toInt32 w) (toInt32 h)) := by
  have hcode : ∀ s packet, Held s packet p → (pdpPacketBitmapConvertRgb8ToYCrCb packet).run s =
      (convertInto packet (PacketKind.imageYCrCb.new w h d)
        (llconvRgb2yvuPlanar16sub (toInt32 w) (toInt32 h))).run s := by
    intro s packet hheld
    refine (run_withHeader hheld _).trans ?_
    rw [hp.width, hp.height]
    rfl
  refine (inBounds_kind hu .imageYCrCb hcode).trans (safeFor_congr fun _ => ?_)
  refine fits_rgb2planar area_of_isInt hp.size ?_
  intro hlt i hi hlast
  have hnew : PacketKind.imageYCrCb.dataSize w h d = _ := rfl
  rw [within_s16, hnew, PacketKind.dataSize, imageSizeYCrCb,
    u32_eq_self (n := u32 (w * h) + u32 (w * h) / 2) (by omega), u32_eq_self (by omega)]
  omega

theorem inBounds_rgb8ToBitmapYCrCb (hp : Built .bitmapRgb w h d p) (hu : 0 < p.users) :
    InBounds pdpPacketBitmapConvertRgb8ToBitmapYCrCb p ↔
      SafeFor (bitmapSizeYv12 w h) (BlocksFit (toInt32 w) (toInt32 h)) := by
  have hcode : ∀ s packet, Held s packet p →
      (pdpPacketBitmapConvertRgb8ToBitmapYCrCb packet).run s =
        (convertInto packet (PacketKind.bitmapYv12.new w h d)
          (llconvRgb2yvuPlanar8sub (toInt32 w) (toInt32 h))).run s := by
    intro s packet hheld
    refine (run_withHeader hheld _).trans ?_
    rw [hp.width, hp.height]
    rfl
  refine (inBounds_kind hu .bitmapYv12 hcode).trans (safeFor_congr fun _ => ?_)
  refine fits_rgb2planar area_of_isInt hp.size ?_
  intro hlt i hi hlast
  rw [within_u8, PacketKind.dataSize, bitmapSizeYv12, u32_eq_self (by omega)]
  omega

/-- A planar image that is no larger than memory has dimensions whose product is not
negative. -/
theorem area_nonneg_of_le (hint : IsInt (toInt32 w * toInt32 h)) {m : Nat}
    (hm : m + pdpHeaderSize < 2 ^ 31) (hle : u32 (w * h) ≤ m) : 0 ≤ toInt32 w * toInt32 h := by
  rcases area_cases hint with ⟨h0, _⟩ | ⟨_, _, hge⟩
  · exact h0
  · omega

theorem inBounds_yv12ToImage (hp : Built .bitmapYv12 w h d p) (hu : 0 < p.users) :
    InBounds pdpPacketBitmapConvertYv12ToImage p ↔ SafeFor (imageSizeYCrCb w h)
      (IsInt (toInt32 w * toInt32 h) ∧ 0 ≤ toInt32 w * toInt32 h) := by
  have hcode : ∀ s packet, Held s packet p → (pdpPacketBitmapConvertYv12ToImage packet).run s =
      (convertInto packet (PacketKind.imageYCrCb.new w h d)
        (pdpLlconv .yvuP411U8 .yvuP411S16 (toInt32 w) (toInt32 h))).run s := by
    intro s packet hheld
    refine (run_withHeader hheld _).trans ?_
    rw [hp.width, hp.height]
    rfl
  refine (inBounds_kind hu .imageYCrCb hcode).trans (safeFor_congr fun hfit => ?_)
  have hsize : p.data.size = u32 (u32 (w * h) + u32 (w * h) / 2) := hp.size
  have hdata := p.data.size_lt
  have hnew : PacketKind.imageYCrCb.dataSize w h d =
      u32 (u32 (u32 (w * h) + u32 (w * h) / 2) * 2) := rfl
  rw [hnew] at hfit ⊢
  unfold pdpLlconv
  constructor
  · rintro ⟨l, hl, hfits⟩
    by_cases hint : IsInt (toInt32 w * toInt32 h)
    · have hmul : intMul (toInt32 w) (toInt32 h) = some _ := intMul_eq_some.mpr ⟨hint, rfl⟩
      rw [hmul] at hl
      obtain rfl : llconvYvuPlanarU8s16 (toInt32 w * toInt32 h) = l := Option.some.inj hl
      refine ⟨hint, ?_⟩
      have hluma : Fits (pixelUnpackU8s16Y (ofInt32 (toInt32 w * toInt32 h))) p.data.size _ :=
        (fits_append.mp hfits).1
      have hle : 1 * ofInt32 (toInt32 w * toInt32 h) ≤ p.data.size := (fits_mapSteps.mp hluma).1
      rw [ofInt32_area, Nat.one_mul] at hle
      exact area_nonneg_of_le hint hdata hle
    · have hmul : intMul (toInt32 w) (toInt32 h) = none := if_neg hint
      rw [hmul] at hl
      cases hl
  · rintro ⟨hint, h0⟩
    have hmul : intMul (toInt32 w) (toInt32 h) = some _ := intMul_eq_some.mpr ⟨hint, rfl⟩
    rcases area_cases hint with ⟨_, harea, hlt⟩ | ⟨hneg, _⟩
    · refine ⟨llconvYvuPlanarU8s16 (toInt32 w * toInt32 h), by rw [hmul]; rfl, ?_⟩
      have hsum : u32 (u32 (w * h) + u32 (w * h) / 2) = u32 (w * h) + u32 (w * h) / 2 :=
        u32_eq_self (by omega)
      rw [hsum] at hsize ⊢
      have htotal : u32 ((u32 (w * h) + u32 (w * h) / 2) * 2) =
          (u32 (w * h) + u32 (w * h) / 2) * 2 := by
        apply u32_eq_self
        unfold DataArea.size at hsize
        omega
      rw [← harea, fits_llconvYvuPlanarU8s16 hlt, hsize, htotal]
      omega
    · omega

/-- The sizes of a planar bitmap and of the image that it is made from. -/
theorem planar_sizes {n : Nat} (hn : n < 2 ^ 32) (hfit : u32 (n + n / 2) + pdpHeaderSize < 2 ^ 31) :
    n < 2 ^ 31 ∧ u32 (n + n / 2) = n + n / 2 ∧ u32 (u32 (n + n / 2) * 2) = 2 * (n + n / 2) ∧
        u32 (n * 2) = 2 * n ∨
      2 ^ 31 ≤ n ∧ u32 (n + n / 2) < n := by
  unfold u32 at *
  omega

theorem inBounds_imageToYv12_YCrCb (hp : Built .imageYCrCb w h d p) (hu : 0 < p.users) :
    InBounds pdpPacketBitmapConvertImageToYv12 p ↔ SafeFor (bitmapSizeYv12 w h)
      (IsInt (toInt32 w * toInt32 h) ∧ 0 ≤ toInt32 w * toInt32 h) := by
  have hcode : ∀ s packet, Held s packet p → (pdpPacketBitmapConvertImageToYv12 packet).run s =
      (convertInto packet (PacketKind.bitmapYv12.new w h d)
        (pdpLlconv .yvuP411S16 .yvuP411U8 (toInt32 w) (toInt32 h))).run s := by
    intro s packet hheld
    refine (run_withHeader hheld _).trans ?_
    rw [hp.isvalid rfl, hp.encoding, hp.width, hp.height]
    simp only [Bool.not_true, Bool.false_eq_true, if_false, PacketKind.encoding, if_true]
    rfl
  refine (inBounds_kind hu .bitmapYv12 hcode).trans (safeFor_congr fun hfit => ?_)
  have hsize : p.data.size = u32 (u32 (u32 (w * h) + u32 (w * h) / 2) * 2) := hp.size
  have hnew : PacketKind.bitmapYv12.dataSize w h d = u32 (u32 (w * h) + u32 (w * h) / 2) := rfl
  rw [hnew] at hfit ⊢
  have hsizes := planar_sizes (u32_lt (w * h)) hfit
  unfold pdpLlconv
  by_cases hint : IsInt (toInt32 w * toInt32 h)
  · have hmul : intMul (toInt32 w) (toInt32 h) = some _ := intMul_eq_some.mpr ⟨hint, rfl⟩
    have harea := area_cases hint
    constructor
    · rintro ⟨l, hl, hfits⟩
      rw [hmul] at hl
      obtain rfl : llconvYvuPlanarS16u8 (ofInt32 (toInt32 w * toInt32 h)) = l :=
        Option.some.inj hl
      rw [ofInt32_area, fits_llconvYvuPlanarS16u8] at hfits
      exact ⟨hint, by omega⟩
    · rintro ⟨_, h0⟩
      refine ⟨llconvYvuPlanarS16u8 (ofInt32 (toInt32 w * toInt32 h)), by rw [hmul]; rfl, ?_⟩
      rw [ofInt32_area, fits_llconvYvuPlanarS16u8, hsize]
      omega
  · have hmul : intMul (toInt32 w) (toInt32 h) = none := if_neg hint
    refine iff_of_false ?_ fun h => hint h.1
    rintro ⟨l, hl, _⟩
    rw [hmul] at hl
    cases hl

theorem inBounds_imageToYv12_grey (hp : Built .imageGrey w h d p) (hu : 0 < p.users) :
    InBounds pdpPacketBitmapConvertImageToYv12 p ↔ SafeFor (bitmapSizeYv12 w h)
      (IsInt (toInt32 w * toInt32 h) ∧ 0 ≤ toInt32 w * toInt32 h) := by
  have hcode : ∀ s packet, Held s packet p → (pdpPacketBitmapConvertImageToYv12 packet).run s =
      (convertInto packet (PacketKind.bitmapYv12.new w h d) (do
        let luma ← pdpLlconv .greyS16 .greyU8 (toInt32 w) (toInt32 h)
        pure (luma ++ memsetSteps (u32 (w * h)) 0x80 (u32 (w * h) / 2)))).run s := by
    intro s packet hheld
    refine (run_withHeader hheld _).trans ?_
    have hne : ¬ pdpImageGREY = pdpImageYV12 := by decide
    rw [hp.isvalid rfl, hp.encoding, hp.width, hp.height]
    simp only [Bool.not_true, Bool.false_eq_true, if_false, PacketKind.encoding, if_true,
      if_neg hne]
    rfl
  refine (inBounds_kind hu .bitmapYv12 hcode).trans (safeFor_congr fun hfit => ?_)
  have hsize : p.data.size = u32 (u32 (w * h) * 2) := hp.size
  have hnew : PacketKind.bitmapYv12.dataSize w h d = u32 (u32 (w * h) + u32 (w * h) / 2) := rfl
  rw [hnew] at hfit ⊢
  have hsizes := planar_sizes (u32_lt (w * h)) hfit
  unfold pdpLlconv
  by_cases hint : IsInt (toInt32 w * toInt32 h)
  · have hmul : intMul (toInt32 w) (toInt32 h) = some _ := intMul_eq_some.mpr ⟨hint, rfl⟩
    have harea := area_cases hint
    constructor
    · rintro ⟨l, hl, hfits⟩
      rw [hmul] at hl
      obtain rfl : llconvGreyS16u8 (ofInt32 (toInt32 w * toInt32 h)) ++
          memsetSteps (u32 (w * h)) 0x80 (u32 (w * h) / 2) = l := Option.some.inj hl
      rw [ofInt32_area, fits_append, fits_llconvGreyS16u8] at hfits
      exact ⟨hint, by omega⟩
    · rintro ⟨_, h0⟩
      refine ⟨llconvGreyS16u8 (ofInt32 (toInt32 w * toInt32 h)) ++
        memsetSteps (u32 (w * h)) 0x80 (u32 (w * h) / 2), by rw [hmul]; rfl, ?_⟩
      rw [ofInt32_area, fits_append, fits_llconvGreyS16u8, fits_memsetSteps, hsize]
      exact ⟨by omega, fun k hk => by omega⟩
  · have hmul : intMul (toInt32 w) (toInt32 h) = none := if_neg hint
    refine iff_of_false ?_ fun h => hint h.1
    rintro ⟨l, hl, _⟩
    rw [hmul] at hl
    cases hl

end Methods

/-! ## The registered methods -/

namespace ConversionMethod

/-- The methods that go through `pdp_llconv`. -/
def usesLlconv : ConversionMethod → Bool
  | bitmapGreyToGrey8 | bitmapGrey8ToGrey | bitmapYCrCbToRgb8 | bitmapImageToYv12
  | bitmapYv12ToImage | bitmapRgb8ToYCrCb | bitmapRgb8ToBitmapYCrCb => true
  | _ => false

/-- The packets that such a method is registered for. -/
def llconvSources : List (ConversionMethod × PacketKind) :=
  [(bitmapGreyToGrey8, .imageGrey), (bitmapGrey8ToGrey, .bitmapGrey),
    (bitmapYCrCbToRgb8, .imageYCrCb), (bitmapImageToYv12, .imageYCrCb),
    (bitmapImageToYv12, .imageGrey), (bitmapYv12ToImage, .bitmapYv12),
    (bitmapRgb8ToYCrCb, .bitmapRgb), (bitmapRgb8ToBitmapYCrCb, .bitmapRgb)]

/-- The dimensions for which such a method stays inside its packets. -/
def SafeDims (w h : Nat) : ConversionMethod → Prop
  | bitmapGreyToGrey8 => SafeFor (bitmapSizePacked 1 w h) (IsInt (toInt32 w * toInt32 h))
  | bitmapGrey8ToGrey => SafeFor (imageSizeGrey w h) True
  | bitmapYCrCbToRgb8 => SafeFor (bitmapSizePacked 3 w h) (BlocksFit (toInt32 w) (toInt32 h))
  | bitmapImageToYv12 => SafeFor (bitmapSizeYv12 w h)
      (IsInt (toInt32 w * toInt32 h) ∧ 0 ≤ toInt32 w * toInt32 h)
  | bitmapYv12ToImage => SafeFor (imageSizeYCrCb w h)
      (IsInt (toInt32 w * toInt32 h) ∧ 0 ≤ toInt32 w * toInt32 h)
  | bitmapRgb8ToYCrCb => SafeFor (imageSizeYCrCb w h) (BlocksFit (toInt32 w) (toInt32 h))
  | bitmapRgb8ToBitmapYCrCb => SafeFor (bitmapSizeYv12 w h) (BlocksFit (toInt32 w) (toInt32 h))
  | _ => True

theorem llconvSources_complete : ∀ c ∈ pdpImageSetup ++ pdpBitmapSetup,
    c.method.usesLlconv = true → ∃ x ∈ llconvSources, x.1 = c.method ∧
      pdpTypeToList c.srcPattern = [x.2.words.1, x.2.words.2, symWildcard] := by
  decide +kernel

end ConversionMethod

/-- A registered conversion that goes through `pdp_llconv` stays inside the packet that it
reads and the one that it writes exactly if the dimensions are safe for it. -/
theorem llconv_inBounds {c : Registration} (hc : c ∈ pdpImageSetup ++ pdpBitmapSetup)
    (hl : c.method.usesLlconv = true) {k : PacketKind} {w h d : Nat} {p : Packet}
    (hp : Built k w h d p) (hu : 0 < p.users)
    (hmatch : pdpTypeDescriptionMatch (k.description w h d) c.srcPattern = true)
    (template : Symbol) :
    InBounds (fun packet => c.method.code packet template) p ↔ c.method.SafeDims w h := by
  obtain ⟨⟨m, k'⟩, hmem, hm, hpattern⟩ := ConversionMethod.llconvSources_complete c hc hl
  obtain rfl := kind_of_match hpattern hmatch
  rw [← hm]
  simp only [ConversionMethod.llconvSources, List.mem_cons, Prod.mk.injEq, List.not_mem_nil,
    or_false] at hmem
  rcases hmem with ⟨rfl, rfl⟩ | ⟨rfl, rfl⟩ | ⟨rfl, rfl⟩ | ⟨rfl, rfl⟩ | ⟨rfl, rfl⟩ | ⟨rfl, rfl⟩ |
    ⟨rfl, rfl⟩ | ⟨rfl, rfl⟩
  · exact inBounds_greyToGrey8 hp hu
  · exact inBounds_grey8ToGrey hp hu
  · exact inBounds_yCrCbToRgb8 hp hu
  · exact inBounds_imageToYv12_YCrCb hp hu
  · exact inBounds_imageToYv12_grey hp hu
  · exact inBounds_yv12ToImage hp hu
  · exact inBounds_rgb8ToYCrCb hp hu
  · exact inBounds_rgb8ToBitmapYCrCb hp hu

/-- A packet of a constructor, with any data. -/
def builtPacket (k : PacketKind) (w h d : Nat) (data : DataArea) : Packet :=
  ⟨k.header w h d, 1, data⟩

theorem yCrCbToRgb8_registered :
    (⟨"image/YCrCb/*".toList, "bitmap/rgb/*".toList, .bitmapYCrCbToRgb8⟩ : Registration) ∈
      pdpImageSetup ++ pdpBitmapSetup :=
  List.mem_of_getElem? (i := 12) rfl

theorem llconv_inBounds_2x2 : InBounds (fun packet => ConversionMethod.bitmapYCrCbToRgb8.code packet
    "bitmap/rgb/2x2".toList) (builtPacket .imageYCrCb 2 2 0 ⟨List.replicate 12 0, by decide⟩) := by
  refine (llconv_inBounds (c := ⟨"image/YCrCb/*".toList, "bitmap/rgb/*".toList,
    .bitmapYCrCbToRgb8⟩) yCrCbToRgb8_registered rfl (built_header (by decide) (by decide) (by decide)
      (by decide)) Nat.one_pos (by decide +kernel) _).mpr ?_
  refine Or.inr ⟨by decide, by decide, by decide, Or.inr ?_⟩
  decide

/-- The smallest image: its only block is half outside. -/
theorem llconv_1x1_out_of_bounds :
    (⟨"image/YCrCb/*".toList, "bitmap/rgb/*".toList, .bitmapYCrCbToRgb8⟩ : Registration) ∈
        pdpImageSetup ++ pdpBitmapSetup ∧
      pdpTypeDescriptionMatch (PacketKind.imageYCrCb.description 1 1 0) "image/YCrCb/*".toList =
        true ∧
      Built .imageYCrCb 1 1 0 (builtPacket .imageYCrCb 1 1 0 ⟨[0, 0], by decide⟩) ∧
      ¬ InBounds (fun packet => ConversionMethod.bitmapYCrCbToRgb8.code packet
        "bitmap/rgb/1x1".toList) (builtPacket .imageYCrCb 1 1 0 ⟨[0, 0], by decide⟩) := by
  have hbuilt : Built .imageYCrCb 1 1 0 (builtPacket .imageYCrCb 1 1 0 ⟨[0, 0], by decide⟩) :=
    built_header (by decide) (by decide) (by decide) (by decide)
  refine ⟨yCrCbToRgb8_registered, by decide +kernel, hbuilt, ?_⟩
  intro h
  rcases (inBounds_yCrCbToRgb8 hbuilt Nat.one_pos).mp h with hr | ⟨_, _, _, hfit⟩
  · revert hr
    decide
  · revert hfit
    decide

end PureDataPacket
