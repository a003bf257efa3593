/-
# `PureDataPacket.Type.Lossless` — bitmap conversions that lose nothing

Three pairs of methods that only move bytes, or double and halve the range of a sample: from
RGB to channels, from RGB to RGBA, and between the two orders of planar chroma, each with the
way back.

The last pair copies two quarters of the pixel count behind the luma, while the packets have
half of it there: with two or three pixels over, a last byte is not copied.

| | |
| :-- | :-- |
| `Lossless` | the condition |
| `interleave_eq` | the loop of `_pdp_packet_bitmap_convert_mchp_to_rgb8` |
| `planes_back` | a component, from a byte to a sample and back |
| `rgba_back` | a component beside one that is not used |
| `swap_back` | twice is not at all, for the bytes that are copied |
-/
import PureDataPacket.Lib.Parts
import PureDataPacket.Type.RoundTrip

namespace PureDataPacket

/-! ## The pairs -/

/-- The pairs of methods. -/
inductive LosslessPair where
  | rgbMulti
  | rgbRgba
  | yv12I420
deriving DecidableEq

namespace LosslessPair

def source : LosslessPair → PacketKind
  | rgbMulti | rgbRgba => .bitmapRgb
  | yv12I420 => .bitmapYv12

def there : LosslessPair → Int → PoolProg Int
  | rgbMulti => pdpPacketBitmapConvertRgb8ToMchp
  | rgbRgba => pdpPacketBitmapConvertRgb8ToRgba8
  | yv12I420 => pdpPacketBitmapConvertYv12TofromI420

def back : LosslessPair → Int → PoolProg Int
  | rgbMulti => pdpPacketBitmapConvertMchpToRgb8
  | rgbRgba => pdpPacketBitmapConvertRgba8ToRgb8
  | yv12I420 => pdpPacketBitmapConvertYv12TofromI420

/-- The dimensions for which nothing is lost: the number of pixels is an `int`, and the sizes do
not wrap or there is no memory for the packet in between; of planar chroma no byte is left over. -/
def Lossless (w h : Nat) : LosslessPair → Prop
  | rgbMulti => IsInt (toInt32 w * toInt32 h) ∧ SafeFor (imageSizeMchp w h 3)
      (0 ≤ toInt32 w * toInt32 h ∧ 3 * u32 (w * h) < 2 ^ 32)
  | rgbRgba => SafeFor (bitmapSizePacked 4 w h) (IsInt (toInt32 w * toInt32 h) ∧
      0 ≤ toInt32 w * toInt32 h ∧ 3 * u32 (w * h) < 2 ^ 32)
  | yv12I420 => IsInt (toInt32 w * toInt32 h) ∧ 0 ≤ toInt32 w * toInt32 h ∧ u32 (w * h) % 4 < 2

end LosslessPair

/-! ## What is not written -/

theorem exists_other (bytes : List UInt8) : ∃ dst : List UInt8, dst.length = bytes.length ∧
    ∀ k < bytes.length, dst[k]? ≠ bytes[k]? := by
  refine ⟨bytes.map (· + 1), List.length_map _, fun k hk => ?_⟩
  rw [List.getElem?_map, List.getElem?_eq_getElem hk, Option.map_some]
  intro h
  have hne : ∀ b : UInt8, b + 1 ≠ b := by
    intro b hb
    have hval := congrArg UInt8.toNat hb
    have := b.toNat_lt
    rw [UInt8.toNat_add] at hval
    have hone : (1 : UInt8).toNat = 1 := rfl
    omega
  exact hne _ (Option.some.inj h)

theorem lossy_of_nothing {bytes : List UInt8} {n : Nat} (hpos : 0 < bytes.length)
    (hsame : ∀ dst dst' mid out : List UInt8, dst.length = n → dst'.length = bytes.length →
      runSteps bytes [] dst = some mid → runSteps mid [] dst' = some out → out = bytes) :
    False := by
  obtain ⟨dst, hlen, hne⟩ := exists_other bytes
  have heq := hsame (List.replicate n 0) dst _ _ List.length_replicate hlen rfl rfl
  exact hne 0 hpos (by rw [heq])

/-! ## Pixels of three bytes -/

/-- The loop of `_pdp_packet_bitmap_convert_rgb8_to_mchp`. -/
def rgbToPlanes (plane : Int) : List Step :=
  stepsFor plane.toNat fun i =>
    [.map u8 s16 i (3 * i + 0) fun v => v * 2 ^ 7,
      .map u8 s16 (i + plane) (3 * i + 1) fun v => v * 2 ^ 7,
      .map u8 s16 (i + plane * 2) (3 * i + 2) fun v => v * 2 ^ 7]

/-- The loop of `_pdp_packet_bitmap_convert_rgb8_to_rgba8`. -/
def rgbToRgba (n : Int) : List Step :=
  stepsFor n.toNat fun i =>
    [.map u8 u8 (4 * i + 0) (3 * i + 0) id, .map u8 u8 (4 * i + 1) (3 * i + 1) id,
      .map u8 u8 (4 * i + 2) (3 * i + 2) id, .const u8 (4 * i + 3) 0]

/-- That of `_pdp_packet_bitmap_convert_rgba8_to_rgb8`. -/
def rgbaToRgb (n : Int) : List Step :=
  stepsFor n.toNat fun i =>
    [.map u8 u8 (3 * i + 0) (4 * i + 0) id, .map u8 u8 (3 * i + 1) (4 * i + 1) id,
      .map u8 u8 (3 * i + 2) (4 * i + 2) id]

section Pixels

variable {x : Nat} {src dst mid out : List UInt8}

theorem once_rgbToPlanes : Once s16 (3 * x) (rgbToPlanes x) := by
  refine .of_exists (fun st hst => ?_) ?_ fun i hi => ?_
  · obtain ⟨k, _, hst⟩ := mem_stepsFor.mp hst
    simp only [List.mem_cons, List.not_mem_nil, or_false] at hst
    rcases hst with rfl | rfl | rfl <;> rfl
  · unfold rgbToPlanes
    rw [length_stepsFor (m := 3) fun _ => rfl, Int.toNat_natCast, Nat.mul_comm]
  · unfold rgbToPlanes
    simp only [mem_stepsFor, Int.toNat_natCast, List.mem_cons, List.not_mem_nil, or_false]
    rcases Nat.lt_or_ge i x with h | h
    · exact ⟨_, ⟨i, h, Or.inl rfl⟩, rfl⟩
    · rcases Nat.lt_or_ge i (2 * x) with h' | h'
      · refine ⟨_, ⟨i - x, by omega, Or.inr (Or.inl rfl)⟩, ?_⟩
        show ((i - x : Nat) : Int) + x = i
        omega
      · refine ⟨_, ⟨i - 2 * x, by omega, Or.inr (Or.inr rfl)⟩, ?_⟩
        show ((i - 2 * x : Nat) : Int) + x * 2 = i
        omega

theorem interleave_eq (n : Nat) (plane : Int) : interleave n plane =
    stepsFor plane.toNat fun i => (List.range n).map fun c : Nat =>
      .map s16 u8 (n * i + c) (i + plane * c) mapSample := by
  unfold interleave
  refine congrArg (stepsFor plane.toNat) (funext fun i => ?_)
  have hcast : (do let c ← List.range n; pure (c : Int)) =
      (List.range n).map fun c : Nat => (c : Int) :=
    List.flatMap_pure_eq_map _ _
  rw [hcast, List.map_map]
  rfl

theorem mem_interleave {i c n : Nat} (hi : i < x) (hc : c < n) :
    Step.map s16 u8 (n * i + c) (i + (x : Int) * c) mapSample ∈ interleave n x := by
  rw [interleave_eq]
  exact mem_stepsFor.mpr ⟨i, by rwa [Int.toNat_natCast],
    List.mem_map.mpr ⟨c, List.mem_range.mpr hc, rfl⟩⟩

theorem once_interleave : Once u8 (3 * x) (interleave 3 x) := by
  refine .of_exists (fun st hst => ?_) ?_ fun i hi => ?_
  · rw [interleave_eq] at hst
    obtain ⟨k, _, hst⟩ := mem_stepsFor.mp hst
    obtain ⟨c, _, rfl⟩ := List.mem_map.mp hst
    rfl
  · rw [interleave_eq, length_stepsFor (m := 3) fun _ => by rw [List.length_map, List.length_range],
      Int.toNat_natCast, Nat.mul_comm]
  · refine ⟨_, mem_interleave (x := x) (show i / 3 < x by omega) (show i % 3 < 3 by omega), ?_⟩
    show ((3 : Nat) : Int) * (i / 3 : Nat) + (i % 3 : Nat) = i
    omega

theorem once_rgbToRgba : Once u8 (4 * x) (rgbToRgba x) := by
  refine .of_exists (fun st hst => ?_) ?_ fun i hi => ?_
  · obtain ⟨k, _, hst⟩ := mem_stepsFor.mp hst
    simp only [List.mem_cons, List.not_mem_nil, or_false] at hst
    rcases hst with rfl | rfl | rfl | rfl <;> rfl
  · unfold rgbToRgba
    rw [length_stepsFor (m := 4) fun _ => rfl, Int.toNat_natCast, Nat.mul_comm]
  · unfold rgbToRgba
    simp only [mem_stepsFor, Int.toNat_natCast, List.mem_cons, List.not_mem_nil, or_false]
    have hk : i / 4 < x := by omega
    have hcases : i % 4 = 0 ∨ i % 4 = 1 ∨ i % 4 = 2 ∨ i % 4 = 3 := by omega
    rcases hcases with h | h | h | h
    · refine ⟨_, ⟨i / 4, hk, Or.inl rfl⟩, ?_⟩
      show (4 : Int) * (i / 4 : Nat) + 0 = i
      omega
    · refine ⟨_, ⟨i / 4, hk, Or.inr (Or.inl rfl)⟩, ?_⟩
      show (4 : Int) * (i / 4 : Nat) + 1 = i
      omega
    · refine ⟨_, ⟨i / 4, hk, Or.inr (Or.inr (Or.inl rfl))⟩, ?_⟩
      show (4 : Int) * (i / 4 : Nat) + 2 = i
      omega
    · refine ⟨_, ⟨i / 4, hk, Or.inr (Or.inr (Or.inr rfl))⟩, ?_⟩
      show (4 : Int) * (i / 4 : Nat) + 3 = i
      omega

theorem mem_rgbaToRgb {i c : Nat} (hi : i < x) (hc : c < 3) :
    Step.map u8 u8 (3 * i + c) (4 * i + c) id ∈ rgbaToRgb x := by
  have hcases : c = 0 ∨ c = 1 ∨ c = 2 := by omega
  refine mem_stepsFor.mpr ⟨i, by rwa [Int.toNat_natCast], ?_⟩
  rcases hcases with rfl | rfl | rfl
  · exact List.mem_cons_self
  · exact List.mem_cons_of_mem _ List.mem_cons_self
  · exact List.mem_cons_of_mem _ (List.mem_cons_of_mem _ List.mem_cons_self)

theorem mem_rgbToRgba {i c : Nat} (hi : i < x) (hc : c < 3) :
    Step.map u8 u8 (4 * i + c) (3 * i + c) id ∈ rgbToRgba x := by
  have hcases : c = 0 ∨ c = 1 ∨ c = 2 := by omega
  refine mem_stepsFor.mpr ⟨i, by rwa [Int.toNat_natCast], ?_⟩
  rcases hcases with rfl | rfl | rfl
  · exact List.mem_cons_self
  · exact List.mem_cons_of_mem _ List.mem_cons_self
  · exact List.mem_cons_of_mem _ (List.mem_cons_of_mem _ List.mem_cons_self)

theorem mem_rgbToPlanes {i c : Nat} (hi : i < x) (hc : c < 3) :
    Step.map u8 s16 (i + x * c : Int) (3 * i + c) (fun v => v * 2 ^ 7) ∈ rgbToPlanes x := by
  have hcases : c = 0 ∨ c = 1 ∨ c = 2 := by omega
  refine mem_stepsFor.mpr ⟨i, by rwa [Int.toNat_natCast], ?_⟩
  rcases hcases with rfl | rfl | rfl
  · rw [Int.natCast_zero, Int.mul_zero, Int.add_zero]
    exact List.mem_cons_self
  · rw [Int.natCast_one, Int.mul_one]
    exact List.mem_cons_of_mem _ List.mem_cons_self
  · exact List.mem_cons_of_mem _ (List.mem_cons_of_mem _ List.mem_cons_self)

theorem once_rgbaToRgb : Once u8 (3 * x) (rgbaToRgb x) := by
  refine .of_exists (fun st hst => ?_) ?_ fun i hi => ?_
  · obtain ⟨k, _, hst⟩ := mem_stepsFor.mp hst
    simp only [List.mem_cons, List.not_mem_nil, or_false] at hst
    rcases hst with rfl | rfl | rfl <;> rfl
  · unfold rgbaToRgb
    rw [length_stepsFor (m := 3) fun _ => rfl, Int.toNat_natCast, Nat.mul_comm]
  · refine ⟨_, mem_rgbaToRgb (x := x) (show i / 3 < x by omega) (show i % 3 < 3 by omega), ?_⟩
    show (3 : Int) * (i / 3 : Nat) + (i % 3 : Nat) = i
    omega

theorem planes_back (hlen : out.length = src.length) (hsrc : src.length = 3 * x)
    (hmid : runSteps src (rgbToPlanes x) dst = some mid) {dst' : List UInt8}
    (hout : runSteps mid (interleave 3 x) dst' = some out) : out = src := by
  refine eq_of_load_u8 hlen fun k hk => ?_
  have hi : k / 3 < x := by omega
  have hc : k % 3 < 3 := by omega
  have hat : (3 : Int) * (k / 3 : Nat) + (k % 3 : Nat) = k := by omega
  have hload := once_rgbToPlanes.load hmid (mem_rgbToPlanes hi hc)
  have hload' := once_interleave.load hout (mem_interleave hi hc)
  have hmid' : s16.load mid ((k / 3 : Nat) + (x : Int) * (k % 3 : Nat)) =
      s16.wrap (u8.load src (3 * (k / 3 : Nat) + (k % 3 : Nat)) * 2 ^ 7) := hload
  have hout' : u8.load out ((3 : Nat) * (k / 3 : Nat) + (k % 3 : Nat)) =
      u8.wrap (mapSample (s16.load mid ((k / 3 : Nat) + (x : Int) * (k % 3 : Nat)))) := hload'
  have hbounds := u8_load_bounds src k
  rw [hat, Format.wrap_s16_of_bounds (by omega) (by omega)] at hmid'
  rw [show ((3 : Nat) : Int) = 3 from rfl, hat, hmid', mapSample, if_neg (by omega),
    Int.mul_ediv_cancel _ (by decide), Format.wrap_u8_of_bounds (by omega) (by omega)] at hout'
  exact hout'

theorem rgba_back (hlen : out.length = src.length) (hsrc : src.length = 3 * x)
    (hmid : runSteps src (rgbToRgba x) dst = some mid) {dst' : List UInt8}
    (hout : runSteps mid (rgbaToRgb x) dst' = some out) : out = src := by
  refine eq_of_load_u8 hlen fun k hk => ?_
  have hi : k / 3 < x := by omega
  have hc : k % 3 < 3 := by omega
  have hat : (3 : Int) * (k / 3 : Nat) + (k % 3 : Nat) = k := by omega
  have hmid' : u8.load mid (4 * (k / 3 : Nat) + (k % 3 : Nat)) =
      u8.wrap (u8.load src (3 * (k / 3 : Nat) + (k % 3 : Nat))) :=
    once_rgbToRgba.load hmid (mem_rgbToRgba hi hc)
  have hout' : u8.load out (3 * (k / 3 : Nat) + (k % 3 : Nat)) =
      u8.wrap (u8.load mid (4 * (k / 3 : Nat) + (k % 3 : Nat))) :=
    once_rgbaToRgb.load hout (mem_rgbaToRgb hi hc)
  have hbounds := u8_load_bounds src k
  have hwrap : u8.wrap (u8.load src k) = u8.load src k :=
    Format.wrap_u8_of_bounds hbounds.1 (by omega)
  rw [hat, hmid', hat, hwrap, hwrap] at hout'
  exact hout'

end Pixels

/-! ## From RGB -/

section Rgb

variable {w h d x n m : Nat} {p : Packet}

theorem fits_rgbToPlanes : Fits (rgbToPlanes x) (3 * x) (6 * x) := by
  refine fits_stepsFor.mpr fun i hi => ?_
  rw [Int.toNat_natCast] at hi
  simp only [fits_cons, fits_nil, Step.fits_map, within_u8, within_s16, and_true]
  omega

theorem fits_interleave : Fits (interleave 3 x) (6 * x) (3 * x) := by
  rw [interleave_eq]
  refine fits_stepsFor.mpr fun i hi st hst => ?_
  rw [Int.toNat_natCast] at hi
  obtain ⟨c, hc, rfl⟩ := List.mem_map.mp hst
  rw [Step.fits_map, within_u8, within_s16]
  have hcases : c = 0 ∨ c = 1 ∨ c = 2 := by
    have := List.mem_range.mp hc
    omega
  rcases hcases with rfl | rfl | rfl <;> omega

theorem fits_rgbToRgba : Fits (rgbToRgba x) (3 * x) (4 * x) := by
  refine fits_stepsFor.mpr fun i hi => ?_
  rw [Int.toNat_natCast] at hi
  simp only [fits_cons, fits_nil, Step.fits_map, Step.fits_const, within_u8, and_true]
  omega

theorem fits_rgbaToRgb : Fits (rgbaToRgb x) (4 * x) (3 * x) := by
  refine fits_stepsFor.mpr fun i hi => ?_
  rw [Int.toNat_natCast] at hi
  simp only [fits_cons, fits_nil, Step.fits_map, within_u8, and_true]
  omega

theorem size_of_fits {source : Format} {j : Nat → Int} {f : Int → Int} {l : List Step}
    (hmem : ∀ i < x, Step.map u8 source (j i) (3 * i + 2) f ∈ l) (hx : 0 < x)
    (hfits : Fits l n m) : 3 * x ≤ n := by
  have hst := (Step.fits_map.mp (hfits _ (hmem (x - 1) (by omega)))).1
  have := (within_u8.mp hst).2
  omega

/-- Three is no divisor of `2 ^ 32`. -/
theorem u32_triple_pos (h0 : 0 < x) (hx : x < 2 ^ 32) : 0 < u32 (x * 3) := by
  refine Nat.pos_of_ne_zero fun hzero => ?_
  have hcoprime : Nat.Coprime (2 ^ 32) 3 := Nat.Coprime.pow_left 32 (by decide)
  have hdvd : 2 ^ 32 ∣ x := hcoprime.dvd_of_dvd_mul_right (Nat.dvd_of_mod_eq_zero hzero)
  exact Nat.not_lt.mpr (Nat.le_of_dvd h0 hdvd) hx

/-- The number of pixels, as the loops count them and as it is in the size of the packet. -/
theorem rgb_cases (hp : Built .bitmapRgb w h d p) (hint : IsInt (toInt32 w * toInt32 h)) :
    (∃ x : Nat, toInt32 w * toInt32 h = x ∧ u32 (w * h) = x ∧ p.data.size = 3 * x ∧
        3 * x < 2 ^ 31) ∨
      (toInt32 w * toInt32 h = u32 (w * h) ∧ 2 ^ 32 ≤ 3 * u32 (w * h) ∧
        p.data.size < 3 * u32 (w * h)) ∨
      toInt32 w * toInt32 h < 0 ∧ 0 < p.data.bytes.length := by
  have hsize : p.data.size = u32 (u32 (w * h) * 3) := hp.size
  have hlt := p.data.size_lt
  have hlen : p.data.bytes.length = p.data.size := rfl
  rcases area_cases hint with ⟨h0, harea, hx⟩ | ⟨hneg, harea, hx⟩
  · rcases Nat.lt_or_ge (3 * u32 (w * h)) (2 ^ 32) with hsmall | hlarge
    · refine Or.inl ⟨u32 (w * h), harea.symm, rfl, ?_⟩
      rw [u32_eq_self (by omega)] at hsize
      omega
    · refine Or.inr (Or.inl ⟨harea.symm, hlarge, ?_⟩)
      omega
  · refine Or.inr (Or.inr ⟨hneg, ?_⟩)
    rw [hlen, hsize]
    exact u32_triple_pos (by omega) (u32_lt (w * h))

theorem lossless_rgbMulti (hp : Built .bitmapRgb w h d p) (hu : 0 < p.users) :
    RoundTrip pdpPacketBitmapConvertRgb8ToMchp pdpPacketBitmapConvertMchpToRgb8 .bitmapRgb w h d p ↔
      LosslessPair.rgbMulti.Lossless w h := by
  by_cases hint : IsInt (toInt32 w * toInt32 h)
  · have hmul : intMul (toInt32 w) (toInt32 h) = some _ := intMul_eq_some.mpr ⟨hint, rfl⟩
    have hcode : ∀ s packet, Held s packet p → (pdpPacketBitmapConvertRgb8ToMchp packet).run s =
        (convertInto packet (PacketKind.imageMulti.new w h 3)
          (some (rgbToPlanes (toInt32 w * toInt32 h)))).run s := by
      intro s packet hheld
      refine (run_withHeader hheld _).trans ?_
      rw [hp.width, hp.height]
      dsimp only
      rw [hmul, checked, PacketKind.new]
      rfl
    have hcode' : ∀ q, Built .imageMulti w h 3 q → ∀ s packet, Held s packet q →
        (pdpPacketBitmapConvertMchpToRgb8 packet).run s =
          (convertInto packet (PacketKind.bitmapRgb.new w h d)
            (some (interleave 3 (toInt32 w * toInt32 h)))).run s := by
      intro q hq s packet hheld
      refine (run_withHeader hheld _).trans ?_
      rw [hq.width, hq.height, hq.depth rfl]
      dsimp only
      rw [hmul, checked, if_neg (by decide), if_pos (by decide), PacketKind.new]
    refine (roundTrip_iff hp hu (by decide) hcode hcode').trans ?_
    unfold LosslessPair.Lossless
    dsimp only
    rw [and_iff_right hint]
    refine safeFor_congr fun hfit => ?_
    rcases rgb_cases hp hint with ⟨x, hP, hx, hsize, hlt⟩ | ⟨hP, hlarge, hsize⟩ | ⟨hneg, hpos⟩
    · have hn : PacketKind.imageMulti.dataSize w h 3 = 6 * x := by
        show u32 (u32 (u32 (w * h) * 3) * 2) = _
        rw [hx]
        unfold u32
        omega
      rw [hP, hx, hn, hsize]
      refine iff_of_true ⟨_, _, rfl, fits_rgbToPlanes, rfl, fits_interleave, ?_⟩ (by omega)
      intro dst dst' mid out _ hdst' hmid hout
      exact planes_back ((length_runSteps hout).trans (hdst'.trans hsize.symm)) hsize hmid hout
    · refine iff_of_false ?_ (by omega)
      rintro ⟨l, l', hl, hfits, _⟩
      rw [← Option.some.inj hl, hP] at hfits
      have := size_of_fits (fun i hi => mem_rgbToPlanes (c := 2) hi (by decide)) (by omega) hfits
      omega
    · refine iff_of_false ?_ (by omega)
      rintro ⟨l, l', hl, _, hl', _, hsame⟩
      have hnil : rgbToPlanes (toInt32 w * toInt32 h) = [] := by
        unfold rgbToPlanes
        rw [Int.toNat_of_nonpos (by omega)]
        rfl
      have hnil' : interleave 3 (toInt32 w * toInt32 h) = [] := by
        rw [interleave_eq, Int.toNat_of_nonpos (by omega)]
        rfl
      rw [← Option.some.inj hl, ← Option.some.inj hl', hnil, hnil'] at hsame
      exact lossy_of_nothing hpos hsame
  · refine iff_of_false (fun hrt => ?_) fun h => hint h.1
    have hin := (inBounds_congr fun s packet hheld => run_withHeader hheld _).mp hrt.there
    obtain ⟨_, hmul, _⟩ := (inBounds_checked_iff hu).mp hin
    rw [hp.width, hp.height] at hmul
    exact hint ((intMul_eq_some.mp hmul).2 ▸ (intMul_eq_some.mp hmul).1)

/-- The work of the two methods between RGB and RGBA. -/
theorem map_intMul {x y : Int} (f : Int → List Step) :
    (do let n ← intMul x y; pure (f n) : Option (List Step)) = (intMul x y).map f := by
  cases intMul x y <;> rfl

theorem lossless_rgbRgba (hp : Built .bitmapRgb w h d p) (hu : 0 < p.users) :
    RoundTrip pdpPacketBitmapConvertRgb8ToRgba8 pdpPacketBitmapConvertRgba8ToRgb8 .bitmapRgb w h d
      p ↔ LosslessPair.rgbRgba.Lossless w h := by
  have hcode : ∀ s packet, Held s packet p → (pdpPacketBitmapConvertRgb8ToRgba8 packet).run s =
      (convertInto packet (PacketKind.bitmapRgba.new w h d)
        ((intMul (toInt32 w) (toInt32 h)).map rgbToRgba)).run s := by
    intro s packet hheld
    refine (run_withHeader hheld _).trans ?_
    rw [hp.width, hp.height, ← map_intMul]
    rfl
  have hcode' : ∀ q, Built .bitmapRgba w h d q → ∀ s packet, Held s packet q →
      (pdpPacketBitmapConvertRgba8ToRgb8 packet).run s =
        (convertInto packet (PacketKind.bitmapRgb.new w h d)
          ((intMul (toInt32 w) (toInt32 h)).map rgbaToRgb)).run s := by
    intro q hq s packet hheld
    refine (run_withHeader hheld _).trans ?_
    rw [hq.width, hq.height, ← map_intMul]
    rfl
  refine (roundTrip_iff hp hu hp.depth_lt hcode hcode').trans (safeFor_congr fun hfit => ?_)
  by_cases hint : IsInt (toInt32 w * toInt32 h)
  · have hmul : intMul (toInt32 w) (toInt32 h) = some _ := intMul_eq_some.mpr ⟨hint, rfl⟩
    rw [hmul, Option.map_some, Option.map_some, and_iff_right hint]
    rcases rgb_cases hp hint with ⟨x, hP, hx, hsize, hlt⟩ | ⟨hP, hlarge, hsize⟩ | ⟨hneg, hpos⟩
    · have hn : PacketKind.bitmapRgba.dataSize w h d = 4 * x := by
        show u32 (u32 (w * h) * 4) = _
        rw [hx]
        unfold u32
        omega
      rw [hP, hx, hn, hsize]
      refine iff_of_true ⟨_, _, rfl, fits_rgbToRgba, rfl, fits_rgbaToRgb, ?_⟩ (by omega)
      intro dst dst' mid out _ hdst' hmid hout
      exact rgba_back ((length_runSteps hout).trans (hdst'.trans hsize.symm)) hsize hmid hout
    · refine iff_of_false ?_ (by omega)
      rintro ⟨l, l', hl, hfits, _⟩
      rw [← Option.some.inj hl, hP] at hfits
      have := size_of_fits (fun i hi => mem_rgbToRgba (c := 2) hi (by decide)) (by omega) hfits
      omega
    · refine iff_of_false ?_ (by omega)
      rintro ⟨l, l', hl, _, hl', _, hsame⟩
      have hnil : rgbToRgba (toInt32 w * toInt32 h) = [] := by
        unfold rgbToRgba
        rw [Int.toNat_of_nonpos (by omega)]
        rfl
      have hnil' : rgbaToRgb (toInt32 w * toInt32 h) = [] := by
        unfold rgbaToRgb
        rw [Int.toNat_of_nonpos (by omega)]
        rfl
      rw [← Option.some.inj hl, ← Option.some.inj hl', hnil, hnil'] at hsame
      exact lossy_of_nothing hpos hsame
  · have hmul : intMul (toInt32 w) (toInt32 h) = none := if_neg hint
    refine iff_of_false ?_ fun h => hint h.1
    rintro ⟨l, l', hl, _⟩
    rw [hmul, Option.map_none] at hl
    cases hl

end Rgb

/-! ## Planar chroma -/

/-- The copies of `_pdp_packet_bitmap_convert_yv12_tofrom_i420`, for `x` pixels. -/
def swapSteps (x : Nat) : List Step :=
  memcpySteps x ++
    (memcpySteps (x / 4)).map (.shift (x + x / 4 : Nat) x) ++
    (memcpySteps (x / 4)).map (.shift x (x + x / 4 : Nat))

section Planar

variable {w h d x : Nat} {p : Packet} {src dst mid out : List UInt8}

theorem swapChroma_eq {P : Int} (hint : IsInt P) (hP : P = x) {a b : Int} (hab : a * b = P) :
    swapChroma a b = some (swapSteps x) := by
  have hmul : intMul a b = some (x : Int) := intMul_eq_some.mpr ⟨hP ▸ hint, by rw [hab, hP]⟩
  have hluma : memcpyInt (x : Int) = some (memcpySteps x) := by
    rw [memcpyInt, if_neg (by omega), Int.toNat_natCast]
  have hquarter : (x : Int).tdiv 4 = (x / 4 : Nat) := by
    rw [Int.tdiv_eq_ediv_of_nonneg (Int.natCast_nonneg x)]
    omega
  have hchroma : memcpyInt ((x : Int).tdiv 4) = some (memcpySteps (x / 4)) := by
    rw [hquarter, memcpyInt, if_neg (by omega), Int.toNat_natCast]
  unfold swapChroma swapSteps
  simp only [hmul, hluma, hchroma, Option.bind_eq_bind, Option.bind_some, Option.pure_def]
  rw [hquarter, Nat.cast_add]

theorem fits_swapSteps {n m : Nat} (hn : x + x / 2 ≤ n) (hm : x + x / 2 ≤ m) :
    Fits (swapSteps x) n m := by
  have h1 : u8.size * x = x := Nat.one_mul x
  unfold swapSteps memcpySteps
  rw [fits_append, fits_append, fits_mapSteps, fits_shift_mapSteps, fits_shift_mapSteps]
  simp only [within_u8, h1]
  exact ⟨⟨⟨by omega, by omega⟩, fun k hk => ⟨by omega, by omega⟩⟩,
    fun k hk => ⟨by omega, by omega⟩⟩

theorem once_swapSteps : Once u8 (x + 2 * (x / 4)) (swapSteps x) := by
  refine .of_exists (fun st hst => ?_) ?_ fun i hi => ?_
  · rcases List.mem_append.mp hst with hst | hst
    · rcases List.mem_append.mp hst with hst | hst
      · obtain ⟨k, _, rfl⟩ := mem_mapSteps.mp hst
        rfl
      · obtain ⟨st', hst', rfl⟩ := List.mem_map.mp hst
        obtain ⟨k, _, rfl⟩ := mem_mapSteps.mp hst'
        rfl
    · obtain ⟨st', hst', rfl⟩ := List.mem_map.mp hst
      obtain ⟨k, _, rfl⟩ := mem_mapSteps.mp hst'
      rfl
  · unfold swapSteps memcpySteps
    rw [List.length_append, List.length_append, List.length_map, List.length_map, length_mapSteps,
      length_mapSteps]
    omega
  · rcases Nat.lt_or_ge i x with h | h
    · exact ⟨_, List.mem_append_left _ (List.mem_append_left _ (mem_mapSteps.mpr ⟨i, h, rfl⟩)), rfl⟩
    · rcases Nat.lt_or_ge i (x + x / 4) with h' | h'
      · refine ⟨_, List.mem_append_left _ (List.mem_append_right _ (List.mem_map_of_mem
          (mem_mapSteps.mpr ⟨i - x, by omega, rfl⟩))), ?_⟩
        show (x : Int) + (i - x : Nat) = i
        omega
      · refine ⟨_, List.mem_append_right _ (List.mem_map_of_mem
          (mem_mapSteps.mpr ⟨i - (x + x / 4), by omega, rfl⟩)), ?_⟩
        show ((x + x / 4 : Nat) : Int) + (i - (x + x / 4) : Nat) = i
        omega

theorem load_swapSteps (hrun : runSteps src (swapSteps x) dst = some out) :
    (∀ k < x, u8.load out k = u8.load src k) ∧
      (∀ k < x / 4, u8.load out (x + k : Nat) = u8.load src (x + x / 4 + k : Nat)) ∧
      ∀ k < x / 4, u8.load out (x + x / 4 + k : Nat) = u8.load src (x + k : Nat) := by
  have hwrap : ∀ i, u8.wrap (id (u8.load src i)) = u8.load src i := by
    intro i
    have hbounds := u8_load_bounds src i
    have hlt : u8.load src i < 2 ^ 8 := by omega
    exact Format.wrap_u8_of_bounds hbounds.1 hlt
  refine ⟨fun k hk => ?_, fun k hk => ?_, fun k hk => ?_⟩
  · rw [← hwrap k]
    exact once_swapSteps.load_map hrun
      (fun st hst => List.mem_append_left _ (List.mem_append_left _ hst)) hk
  · rw [← hwrap]
    exact once_swapSteps.load_shift hrun
      (fun st hst => List.mem_append_left _ (List.mem_append_right _ hst)) hk
  · rw [← hwrap]
    exact once_swapSteps.load_shift hrun (fun st hst => List.mem_append_right _ hst) hk

theorem swap_back (hmid : runSteps src (swapSteps x) dst = some mid) {dst' : List UInt8}
    (hout : runSteps mid (swapSteps x) dst' = some out) {k : Nat} (hk : k < x + 2 * (x / 4)) :
    u8.load out k = u8.load src k := by
  obtain ⟨h0, h1, h2⟩ := load_swapSteps hmid
  obtain ⟨h0', h1', h2'⟩ := load_swapSteps hout
  rcases Nat.lt_or_ge k x with h | h
  · rw [h0' k h, h0 k h]
  · rcases Nat.lt_or_ge k (x + x / 4) with h' | h'
    · obtain ⟨j, rfl⟩ := Nat.exists_eq_add_of_le h
      rw [h1' j (by omega), h2 j (by omega)]
    · obtain ⟨j, rfl⟩ := Nat.exists_eq_add_of_le h'
      rw [h2' j (by omega), h1 j (by omega)]

theorem swapChroma_some {a b : Int} {l : List Step} (h : swapChroma a b = some l) :
    IsInt (a * b) ∧ 0 ≤ a * b := by
  unfold swapChroma at h
  simp only [Option.bind_eq_bind] at h
  obtain ⟨plane, hplane, h⟩ := Option.bind_eq_some_iff.mp h
  obtain ⟨hint, heq⟩ := intMul_eq_some.mp hplane
  obtain ⟨luma, hluma, _⟩ := Option.bind_eq_some_iff.mp h
  rw [heq] at hint hluma
  refine ⟨hint, Int.not_lt.mp fun hneg => ?_⟩
  rw [memcpyInt, if_pos hneg] at hluma
  cases hluma

theorem run_yv12ToI420 (hp : Built .bitmapYv12 w h d p) (s : Pool) (packet : Int)
    (hheld : Held s packet p) : (pdpPacketBitmapConvertYv12TofromI420 packet).run s =
      (convertInto packet (PacketKind.bitmapI420.new w h d)
        (swapChroma (toInt32 w) (toInt32 h))).run s := by
  refine (run_withHeader hheld _).trans ?_
  rw [hp.width, hp.height, hp.encoding]
  rfl

theorem run_i420ToYv12 (hp : Built .bitmapI420 w h d p) (s : Pool) (packet : Int)
    (hheld : Held s packet p) : (pdpPacketBitmapConvertYv12TofromI420 packet).run s =
      (convertInto packet (PacketKind.bitmapYv12.new w h d)
        (swapChroma (toInt32 w) (toInt32 h))).run s := by
  refine (run_withHeader hheld _).trans ?_
  rw [hp.width, hp.height, hp.encoding]
  rfl

theorem lossless_yv12I420 (hp : Built .bitmapYv12 w h d p) (hu : 0 < p.users) :
    RoundTrip pdpPacketBitmapConvertYv12TofromI420 pdpPacketBitmapConvertYv12TofromI420 .bitmapYv12
      w h d p ↔ LosslessPair.yv12I420.Lossless w h := by
  have hcode := run_yv12ToI420 hp
  have hcode' : ∀ q, Built .bitmapI420 w h d q → ∀ s packet, Held s packet q →
      (pdpPacketBitmapConvertYv12TofromI420 packet).run s =
        (convertInto packet (PacketKind.bitmapYv12.new w h d)
          (swapChroma (toInt32 w) (toInt32 h))).run s := fun q hq => run_i420ToYv12 hq
  have hn : PacketKind.bitmapI420.dataSize w h d = p.data.size := hp.size.symm
  have hfit : Fitting p.data.size := p.data.size_lt
  have hsafe : ∀ ok : Prop, SafeFor p.data.size ok ↔ ok := fun ok =>
    ⟨fun hor => (hor.resolve_left fun hr => not_fitting_of_refused hr hfit).2,
      fun hok => Or.inr ⟨hfit, hok⟩⟩
  rw [roundTrip_iff hp hu hp.depth_lt hcode hcode', hn, hsafe]
  -- the size of the packets, once the number of pixels is known
  have hsize : IsInt (toInt32 w * toInt32 h) → 0 ≤ toInt32 w * toInt32 h →
      toInt32 w * toInt32 h = u32 (w * h) ∧ p.data.size = u32 (w * h) + u32 (w * h) / 2 := by
    intro hint h0
    have hsize : p.data.size = u32 (u32 (w * h) + u32 (w * h) / 2) := hp.size
    rcases area_cases hint with ⟨_, harea, hlt⟩ | ⟨hneg, _⟩
    · rw [u32_eq_self (by omega)] at hsize
      exact ⟨harea.symm, hsize⟩
    · omega
  constructor
  · rintro ⟨l, l', hl, _, hl', hfits, hsame⟩
    obtain ⟨hint, h0⟩ := swapChroma_some hl
    obtain ⟨hP, hlen⟩ := hsize hint h0
    refine ⟨hint, h0, Nat.lt_of_not_le fun hrest => ?_⟩
    have hwork := swapChroma_eq hint hP rfl
    obtain rfl := Option.some.inj (hl.symm.trans hwork)
    obtain rfl := Option.some.inj (hl'.symm.trans hwork)
    -- the last byte is that of the packet that was handed out
    obtain ⟨dst, hdst, hne⟩ := exists_other p.data.bytes
    obtain ⟨mid, hmid⟩ := runSteps_isSome_iff.mpr (show Fits (swapSteps (u32 (w * h)))
      p.data.bytes.length dst.length by rw [hdst]; exact hfits)
    have hmidlen : mid.length = p.data.size := (length_runSteps hmid).trans hdst
    obtain ⟨out, hout⟩ := runSteps_isSome_iff.mpr (show Fits (swapSteps (u32 (w * h)))
      mid.length dst.length by rw [hdst, hmidlen]; exact hfits)
    have heq := hsame dst dst mid out hdst hdst hmid hout
    have hbytes : p.data.bytes.length = u32 (w * h) + u32 (w * h) / 2 := hlen
    refine hne (u32 (w * h) + u32 (w * h) / 2 - 1) (by omega) ?_
    rw [← heq]
    refine (getElem?_runSteps_of_not_written (fun hw => ?_) hout).symm
    obtain ⟨st, hst, ho⟩ := hw
    rw [once_swapSteps.target st hst, occupies_u8] at ho
    have := (once_swapSteps.index_bounds hst).2
    omega
  · rintro ⟨hint, h0, hrest⟩
    obtain ⟨hP, hlen⟩ := hsize hint h0
    have hwork := swapChroma_eq hint hP rfl
    have hfits : Fits (swapSteps (u32 (w * h))) p.data.size p.data.size :=
      fits_swapSteps (Nat.le_of_eq hlen.symm) (Nat.le_of_eq hlen.symm)
    refine ⟨_, _, hwork, hfits, hwork, hfits, fun dst dst' mid out _ hdst' hmid hout => ?_⟩
    have hout' : out.length = p.data.size := (length_runSteps hout).trans hdst'
    exact eq_of_load_u8 hout' fun k hk => swap_back hmid hout (by omega)

end Planar

/-! ## All of them -/

/-- The conversions between bitmaps, and from RGB to channels, are undone by their inverses
exactly if the number of pixels is an `int`, the sizes do not wrap and no byte of planar chroma
is left over. -/
theorem lossless_iff (k : LosslessPair) {w h d : Nat} {p : Packet} (hp : Built k.source w h d p)
    (hu : 0 < p.users) : RoundTrip k.there k.back k.source w h d p ↔ k.Lossless w h := by
  cases k with
  | rgbMulti => exact lossless_rgbMulti hp hu
  | rgbRgba => exact lossless_rgbRgba hp hu
  | yv12I420 => exact lossless_yv12I420 hp hu

/-- Five pixels. -/
theorem lossless_iff_5x1 : RoundTrip LosslessPair.yv12I420.there LosslessPair.yv12I420.back
    LosslessPair.yv12I420.source 5 1 0
      (builtPacket .bitmapYv12 5 1 0 ⟨[1, 2, 3, 4, 5, 6, 7], by decide⟩) ↔
    LosslessPair.yv12I420.Lossless 5 1 :=
  lossless_iff .yv12I420 (built_header (by decide) (by decide) (by decide) (by decide)) Nat.one_pos

/-- Of three pixels, the only byte behind the luma is not copied. -/
theorem not_lossless_3x1 : ∃ q q',
    Built .bitmapYv12 3 1 0 (builtPacket .bitmapYv12 3 1 0 ⟨[1, 2, 3, 4], by decide⟩) ∧
      Converts pdpPacketBitmapConvertYv12TofromI420
        (builtPacket .bitmapYv12 3 1 0 ⟨[1, 2, 3, 4], by decide⟩) q ∧
      Converts pdpPacketBitmapConvertYv12TofromI420 q q' ∧ q'.data.bytes = [1, 2, 3, 9] := by
  have hbuilt : Built .bitmapYv12 3 1 0
      (builtPacket .bitmapYv12 3 1 0 ⟨[1, 2, 3, 4], by decide⟩) :=
    built_header (by decide) (by decide) (by decide) (by decide)
  have hwork : swapChroma (toInt32 (3 : Nat)) (toInt32 (1 : Nat)) = some (swapSteps 3) :=
    swapChroma_eq (x := 3) (by decide) (by decide) rfl
  have hfits : Fits (swapSteps 3) 4 4 := fits_swapSteps (by decide) (by decide)
  obtain ⟨q, hq, hrun⟩ := Converts.of_filled (PacketKind.bitmapI420.constructs 3 1 0) (by decide)
    Nat.one_pos (p := builtPacket .bitmapYv12 3 1 0 ⟨[1, 2, 3, 4], by decide⟩) hfits
    [9, 9, 9, 9] rfl
  have hcode := run_yv12ToI420 hbuilt
  rw [hwork] at hcode
  obtain ⟨hbuilt', husers, _⟩ := Converts.built (by decide) (by decide) (by decide) hq
  have hbytes : q.data.bytes = [1, 2, 3, 9] := Option.some.inj (hrun.symm.trans (by decide))
  obtain ⟨q', hq', hrun'⟩ := Converts.of_filled (PacketKind.bitmapYv12.constructs 3 1 0) (by decide)
    husers (l := swapSteps 3) (by rw [hbuilt'.size]; exact hfits) [9, 9, 9, 9] rfl
  have hcode' := run_i420ToYv12 hbuilt'
  rw [hwork] at hcode'
  refine ⟨q, q', hbuilt, (converts_congr hcode).mpr hq, (converts_congr hcode').mpr hq', ?_⟩
  rw [hbytes] at hrun'
  exact Option.some.inj (hrun'.symm.trans (by decide))

end PureDataPacket
