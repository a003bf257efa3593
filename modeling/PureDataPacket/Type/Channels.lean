/-
# `PureDataPacket.Type.Channels` — between `image/YCrCb` and `image/multi`

The chroma planes of an `image/YCrCb` packet are a quarter of the size of its luma; the
channels of an `image/multi` packet are all alike.

| | |
| :-- | :-- |
| `multi_roundTrip` | from planes to channels and back |
| `multiToYCrCb_iff` | from channels to planes, of which there should be three |
-/
import PureDataPacket.Image.Halving
import PureDataPacket.Type.RoundTrip

namespace PureDataPacket

open Pool

/-! ## Three planes -/

section Planes

variable {n n₁ n₂ : Nat} {l₁ l₂ : List Step} {src dst m m' out : List UInt8} {x₁ x₂ i : Int}

/-- A plane that is copied, and two others that are filled behind it. -/
theorem planes_of_run (h₁ : Once s16 n₁ l₁) (h₂ : Once s16 n₂ l₂)
    (hrun : runSteps src (memcpySteps (2 * n) ++ l₁.map (.shift x₁ n) ++
      l₂.map (.shift x₂ (n + n₁ : Nat))) dst = some out) :
    (∀ k < 2 * n, u8.load out k = u8.load src k) ∧
      (∃ d₁ m₁, runSteps src (l₁.map (.shift x₁ n)) d₁ = some m₁ ∧
        ∀ i : Int, n ≤ i → i < n + n₁ → s16.load out i = s16.load m₁ i) ∧
      ∃ d₂, runSteps src (l₂.map (.shift x₂ (n + n₁ : Nat))) d₂ = some out := by
  obtain ⟨m₁, hrun₁, hrun₂⟩ := exists_of_append hrun
  obtain ⟨m₀, hrun₀, hrun₁⟩ := exists_of_append hrun₁
  have hsize : (s16.size : Int) = 2 := rfl
  refine ⟨fun k hk => ?_, ⟨m₀, m₁, hrun₁, fun i hi hi' => ?_⟩, m₁, hrun₂⟩
  · rw [← load_memcpy hk hrun₀, load_of_not_written hrun₂ (Int.natCast_nonneg k) fun p hp hw => ?_,
      load_of_not_written hrun₁ (Int.natCast_nonneg k) fun p hp hw => ?_]
    · have hat := (h₁.written_advanced hw).1
      rw [hsize] at hat
      have := occupies_u8.mp hp
      omega
    · have hat := (h₂.written_advanced hw).1
      rw [hsize] at hat
      have := occupies_u8.mp hp
      omega
  · refine load_of_not_written hrun₂ (by omega) fun p hp hw => ?_
    have hat := (h₂.written_advanced hw).1
    rw [hsize] at hat
    have := (occupies_s16.mp hp).2
    omega

theorem bytes_of_load {k : Nat} (hk : 2 * k + 2 ≤ m.length) (hk' : 2 * k + 2 ≤ m'.length)
    (h : s16.load m k = s16.load m' k) :
    m.getD (2 * k) 0 = m'.getD (2 * k) 0 ∧ m.getD (2 * k + 1) 0 = m'.getD (2 * k + 1) 0 := by
  have hmod := congrArg (· % ((2 ^ 16 : Nat) : Int)) h
  simp only [s16_load hk, s16_load hk'] at hmod
  rw [Int.bmod_emod, Int.bmod_emod] at hmod
  have h0 := (m.getD (2 * k) 0).toNat_lt
  have h1 := (m.getD (2 * k + 1) 0).toNat_lt
  have h0' := (m'.getD (2 * k) 0).toNat_lt
  have h1' := (m'.getD (2 * k + 1) 0).toNat_lt
  constructor
  · exact UInt8.toNat_inj.mp (by omega)
  · exact UInt8.toNat_inj.mp (by omega)

/-- Buffers with the same bytes, and then the same samples. -/
theorem eq_of_planes (hlen : m.length = 2 * n₁) (hlen' : m'.length = 2 * n₁)
    (hbytes : ∀ k < 2 * n, u8.load m k = u8.load m' k)
    (hsamples : ∀ k : Nat, n ≤ k → k < n₁ → s16.load m k = s16.load m' k) : m = m' := by
  refine eq_of_load_u8 (hlen.trans hlen'.symm) fun k hk => ?_
  rcases Nat.lt_or_ge k (2 * n) with h | h
  · exact hbytes k h
  · obtain ⟨hlo, hhi⟩ := bytes_of_load (k := k / 2) (by omega) (by omega)
      (hsamples (k / 2) (by omega) (by omega))
    rw [u8_load, u8_load]
    rcases Nat.mod_two_eq_zero_or_one k with h0 | h1
    · rw [show k = 2 * (k / 2) by omega, hlo]
    · rw [show k = 2 * (k / 2) + 1 by omega, hhi]

end Planes

/-! ## The planes of an image -/

/-- What `_pdp_packet_image_convert_YCrCb_to_multi` does, for `2 * a` by `2 * b` pixels. -/
def expandSteps (a b : Nat) : List Step :=
  memcpySteps (2 * (4 * (a * b))) ++
    (doubleAll a b).map (.shift (4 * (a * b) : Nat) (4 * (a * b) : Nat)) ++
    (doubleAll a b).map (.shift (5 * (a * b) : Nat) (4 * (a * b) + 4 * (a * b) : Nat))

/-- What `_pdp_packet_image_convert_multi_to_YCrCb` does, if there are three channels. -/
def reduceSteps (a b : Nat) : List Step :=
  memcpySteps (2 * (4 * (a * b))) ++
    (halveSteps a b).map (.shift (4 * (a * b) : Nat) (4 * (a * b) : Nat)) ++
    (halveSteps a b).map (.shift (8 * (a * b) : Nat) (4 * (a * b) + a * b : Nat))

section Planes

variable {a b : Nat} {src dst mid out : List UInt8}

/-- To halve what was doubled is to have it back. -/
theorem reduce_expand (hsrc : src.length = 2 * (6 * (a * b))) (hlen : out.length = src.length)
    (hexpand : runSteps src (expandSteps a b) dst = some mid) {dst' : List UInt8}
    (hreduce : runSteps mid (reduceSteps a b) dst' = some out) : out = src := by
  obtain ⟨hluma, ⟨d₁, m₁, hd₁, hm₁⟩, d₂, hd₂⟩ := planes_of_run once_double once_double hexpand
  obtain ⟨hluma', ⟨d₁', m₁', hd₁', hm₁'⟩, d₂', hd₂'⟩ :=
    planes_of_run once_halve once_halve hreduce
  refine eq_of_planes (hlen.trans hsrc) hsrc
    (fun k hk => (hluma' k hk).trans (hluma k hk)) fun i hi hi' => ?_
  rcases Nat.lt_or_ge i (5 * (a * b)) with h | h
  · obtain ⟨row, hrow, k, hk, he⟩ := exists_mul_add (show i - 4 * (a * b) < a * b by omega)
    have hat : (i : Int) = (4 * (a * b) : Nat) + (a * row + k : Nat) := by omega
    rw [hm₁' i (by omega) (by omega), hat, load_halve hrow hk (by omega) hd₁']
    refine blockMean_of_eq fun t => ?_
    have ht := blockPixel_lt hrow hk t
    rw [hm₁ _ (by omega) (by omega), load_double hrow hk t (by omega) hd₁]
  · obtain ⟨row, hrow, k, hk, he⟩ := exists_mul_add (show i - 5 * (a * b) < a * b by omega)
    have hat : (i : Int) = (4 * (a * b) + a * b : Nat) + (a * row + k : Nat) := by omega
    have hat' : (i : Int) = (5 * (a * b) : Nat) + (a * row + k : Nat) := by omega
    conv_lhs => rw [hat]
    rw [load_halve hrow hk (by omega) hd₂']
    refine blockMean_of_eq fun t => ?_
    have hsame : ((8 * (a * b) : Nat) : Int) = (4 * (a * b) + 4 * (a * b) : Nat) := by omega
    rw [hsame, load_double hrow hk t (by omega) hd₂, hat']

theorem forRows_zero {step : Int} (f : Nat → List Step) : forRows 0 step f = some [] := rfl

theorem stepsFor_nothing (h : a * b = 0) (f : Nat → Nat → List Step) :
    (stepsFor b fun row => stepsFor a (f row)) = [] := by
  refine List.eq_nil_iff_forall_not_mem.mpr fun st hst => ?_
  obtain ⟨row, hrow, hst⟩ := mem_stepsFor.mp hst
  obtain ⟨k, hk, _⟩ := mem_stepsFor.mp hst
  have := add_mul_lt hrow hk
  omega

theorem pdpResampleHalve_zero {x y : Int} (h : x * y = 0) : pdpResampleHalve x y = some [] := by
  have hmul : intMul (y / 2) (x / 2) = some 0 := by
    refine intMul_eq_some.mpr ⟨by decide, ?_⟩
    rcases Int.mul_eq_zero.mp h with rfl | rfl
    · rw [Int.zero_ediv, Int.mul_zero]
    · rw [Int.zero_ediv, Int.zero_mul]
  unfold pdpResampleHalve
  simp only [hmul, Option.bind_eq_bind, Option.bind_some, forRows_zero]

theorem pdpResampleDouble_zero {x y : Int} (h : x * y = 0) : pdpResampleDouble x y = some [] := by
  have hmul : intMul y x = some 0 :=
    intMul_eq_some.mpr ⟨by decide, by rw [Int.mul_comm]; exact h.symm⟩
  unfold pdpResampleDouble
  simp only [hmul, Option.bind_eq_bind, Option.bind_some, forRows_zero]

/-- The dimensions as `int`s, unless the image is empty. -/
theorem dims_of_area (h : 4 * (a * b) < 2 ^ 31) :
    toInt32 (2 * a : Nat) * toInt32 (2 * b : Nat) = (4 * (a * b) : Nat) ∧
      (a * b = 0 ∨ toInt32 (2 * a : Nat) = 2 * a ∧ toInt32 (2 * b : Nat) = 2 * b) := by
  rcases Nat.eq_zero_or_pos (a * b) with h0 | hpos
  · refine ⟨?_, Or.inl h0⟩
    rw [h0]
    rcases Nat.mul_eq_zero.mp h0 with rfl | rfl
    · exact Int.zero_mul _
    · exact Int.mul_zero _
  · have ha : 0 < a := Nat.pos_of_mul_pos_right hpos
    have hb : 0 < b := Nat.pos_of_mul_pos_left hpos
    have hle : a ≤ a * b := Nat.le_mul_of_pos_right a hb
    have hle' : b ≤ a * b := Nat.le_mul_of_pos_left b ha
    have hw := toInt32_of_nat_lt (n := 2 * a) (by omega)
    have hh := toInt32_of_nat_lt (n := 2 * b) (by omega)
    refine ⟨?_, Or.inr ⟨by rw [hw]; rfl, by rw [hh]; rfl⟩⟩
    rw [hw, hh]
    push_cast
    ring

theorem memcpy_luma (h : 8 * (a * b) < 2 ^ 31) :
    intMul (4 * (a * b) : Nat) 2 = some ((2 * (4 * (a * b)) : Nat) : Int) ∧
      memcpyInt (2 * (4 * (a * b)) : Nat) = some (memcpySteps (2 * (4 * (a * b)))) := by
  constructor
  · exact intMul_eq_some.mpr ⟨by unfold IsInt; omega, by omega⟩
  · rw [memcpyInt, if_neg (by omega), Int.toNat_natCast]

theorem yCrCbToMulti_eq (h : 12 * (a * b) < 2 ^ 31) :
    yCrCbToMulti (4 * (a * b) : Nat) (toInt32 (2 * a : Nat)) (toInt32 (2 * b : Nat)) =
      some (expandSteps a b) := by
  obtain ⟨hmul, hluma⟩ := memcpy_luma (a := a) (b := b) (by omega)
  have hfive : ((4 * (a * b) : Nat) : Int) + ((4 * (a * b) : Nat) : Int) / 4 =
      (5 * (a * b) : Nat) := by omega
  have height : ((4 * (a * b) : Nat) : Int) + ((4 * (a * b) : Nat) : Int) =
      (4 * (a * b) + 4 * (a * b) : Nat) := by omega
  have hdouble : pdpResampleDouble (toInt32 (2 * a : Nat) / 2) (toInt32 (2 * b : Nat) / 2) =
      some (doubleAll a b) := by
    obtain ⟨harea, h0 | ⟨hw, hh⟩⟩ := dims_of_area (a := a) (b := b) (by omega)
    · have hnone : doubleAll a b = [] := stepsFor_nothing h0 _
      rw [hnone]
      refine pdpResampleDouble_zero ?_
      rcases Int.mul_eq_zero.mp (harea.trans (by rw [h0]; rfl)) with hz | hz
      · rw [hz, Int.zero_ediv, Int.zero_mul]
      · rw [hz, Int.zero_ediv, Int.mul_zero]
    · rw [hw, hh, show (2 * a : Int) / 2 = a by omega, show (2 * b : Int) / 2 = b by omega]
      exact pdpResampleDouble_eq (by unfold IsInt; rw [Int.mul_comm]; push_cast at h; omega)
  unfold yCrCbToMulti expandSteps
  simp only [hmul, hluma, hdouble, hfive, height, Option.bind_eq_bind, Option.bind_some]
  rfl

theorem multiToYCrCb_eq (h : 12 * (a * b) < 2 ^ 31) {d : Int} (hd : 2 ≤ d) :
    multiToYCrCb (4 * (a * b) : Nat) (toInt32 (2 * a : Nat)) (toInt32 (2 * b : Nat)) d =
      some (reduceSteps a b) := by
  obtain ⟨hmul, hluma⟩ := memcpy_luma (a := a) (b := b) (by omega)
  have hfive : ((4 * (a * b) : Nat) : Int) + ((4 * (a * b) : Nat) : Int) / 4 =
      (4 * (a * b) + a * b : Nat) := by omega
  have height : 2 * ((4 * (a * b) : Nat) : Int) = (8 * (a * b) : Nat) := by omega
  have hhalve : pdpResampleHalve (toInt32 (2 * a : Nat)) (toInt32 (2 * b : Nat)) =
      some (halveSteps a b) := by
    obtain ⟨harea, h0 | ⟨hw, hh⟩⟩ := dims_of_area (a := a) (b := b) (by omega)
    · have hnone : halveSteps a b = [] := stepsFor_nothing h0 _
      rw [hnone]
      exact pdpResampleHalve_zero (harea.trans (by rw [h0]; rfl))
    · rw [hw, hh]
      exact pdpResampleHalve_eq (by unfold IsInt; rw [Int.mul_comm]; push_cast at h; omega)
  have hd' : (1 : Int) ≤ d := by omega
  unfold multiToYCrCb reduceSteps
  simp only [hmul, hluma, hhalve, hfive, height, if_pos hd, if_pos hd', Option.bind_eq_bind,
    Option.bind_some]
  rfl

theorem fits_memcpy {n m m' : Nat} (hn : n ≤ m) (hm : n ≤ m') : Fits (memcpySteps n) m m' := by
  have h1 : u8.size * n = n := Nat.one_mul n
  exact fits_mapSteps.mpr ⟨h1.symm ▸ hn, h1.symm ▸ hm⟩

theorem fits_expand : Fits (expandSteps a b) (12 * (a * b)) (24 * (a * b)) := by
  refine fits_append.mpr ⟨fits_append.mpr ⟨fits_memcpy (by omega) (by omega), ?_⟩, ?_⟩
  · exact fits_double (by omega) (by omega) (by omega) (by omega)
  · exact fits_double (by omega) (by omega) (by omega) (by omega)

theorem fits_reduce {n : Nat} (h : 24 * (a * b) ≤ n) :
    Fits (reduceSteps a b) n (12 * (a * b)) := by
  refine fits_append.mpr ⟨fits_append.mpr ⟨fits_memcpy (by omega) (by omega), ?_⟩, ?_⟩
  · exact fits_halve (by omega) (by omega) (by omega) (by omega)
  · exact fits_halve (by omega) (by omega) (by omega) (by omega)

end Planes

/-! ## Through `image/multi` -/

section Multi

variable {a b d : Nat} {p q : Packet}

theorem area_eq (w h : Nat) (hw : w = 2 * a) (hh : h = 2 * b) : w * h = 4 * (a * b) := by
  rw [hw, hh]
  ring

/-- The sizes of a packet with room for its samples, and of the packet it becomes. -/
theorem image_sizes (h : 12 * (a * b) < 2 ^ 31) :
    imageSizeYCrCb (2 * a) (2 * b) = 12 * (a * b) ∧
      imageSizeMchp (2 * a) (2 * b) 3 = 24 * (a * b) := by
  have harea : u32 (2 * a * (2 * b)) = 4 * (a * b) := by
    rw [area_eq _ _ rfl rfl]
    exact u32_eq_self (by omega)
  unfold imageSizeYCrCb imageSizeMchp
  rw [harea]
  unfold u32
  dsimp only
  omega

/-- `plane_size`. -/
theorem planeSize_eq (h : 12 * (a * b) < 2 ^ 31) :
    intMul (toInt32 (2 * a : Nat)) (toInt32 (2 * b : Nat)) = some ((4 * (a * b) : Nat) : Int) := by
  obtain ⟨harea, _⟩ := dims_of_area (a := a) (b := b) (by omega)
  exact intMul_eq_some.mpr ⟨by unfold IsInt; omega, harea.symm⟩

theorem run_yCrCbToMulti (hp : Built .imageYCrCb (2 * a) (2 * b) d p) (h : 12 * (a * b) < 2 ^ 31)
    (s : Pool) (packet : Int) (hheld : Held s packet p) :
    (pdpPacketImageConvertYCrCbToMulti packet).run s =
      (convertInto packet (PacketKind.imageMulti.new (2 * a) (2 * b) 3)
        (some (expandSteps a b))).run s := by
  refine (run_withHeader hheld _).trans ?_
  rw [hp.width, hp.height]
  dsimp only
  rw [planeSize_eq h, checked, yCrCbToMulti_eq h, PacketKind.new]

theorem run_multiToYCrCb (hq : Built .imageMulti (2 * a) (2 * b) d q) (hd : 2 ≤ toInt32 d)
    (h : 12 * (a * b) < 2 ^ 31) (d' : Nat) (s : Pool) (packet : Int) (hheld : Held s packet q) :
    (pdpPacketImageConvertMultiToYCrCb packet).run s =
      (convertInto packet (PacketKind.imageYCrCb.new (2 * a) (2 * b) d')
        (some (reduceSteps a b))).run s := by
  refine (run_withHeader hheld _).trans ?_
  rw [hq.width, hq.height, hq.depth rfl]
  dsimp only
  rw [planeSize_eq h, checked, multiToYCrCb_eq h hd, PacketKind.new]

/-- A plane of any size, twice as large and back. -/
theorem halve_double {src dst dst' : List UInt8} (h : 4 * (a * b) < 2 ^ 31)
    (hsrc : src.length = 2 * (a * b)) (hdst : dst.length = 8 * (a * b))
    (hdst' : dst'.length = src.length) : ∃ l l' mid, pdpResampleDouble a b = some l ∧
      pdpResampleHalve (2 * a) (2 * b) = some l' ∧ runSteps src l dst = some mid ∧
      runSteps mid l' dst' = some src := by
  have hint : IsInt (b * a) := by
    unfold IsInt
    rw [Int.mul_comm]
    push_cast at h
    omega
  have hid : ∀ l : List Step, l.map (.shift 0 0) = l := by
    intro l
    refine (List.map_congr_left fun st _ => ?_).trans (List.map_id l)
    show Step.mk _ _ (st.loads.map (0 + ·)) (0 + st.index) _ = st
    simp only [Int.zero_add, List.map_id']
  have hfits : Fits (doubleAll a b) src.length dst.length := by
    have := fits_double (a := a) (b := b) (x := 0) (y := 0) (n := src.length) (m := dst.length)
      (by omega) (by omega) (by omega) (by omega)
    rwa [hid] at this
  obtain ⟨mid, hmid⟩ := runSteps_isSome_iff.mpr hfits
  have hlen : mid.length = 8 * (a * b) := (length_runSteps hmid).trans hdst
  have hfits' : Fits (halveSteps a b) mid.length dst'.length := by
    have := fits_halve (a := a) (b := b) (x := 0) (y := 0) (n := mid.length) (m := dst'.length)
      (by omega) (by omega) (by omega) (by omega)
    rwa [hid] at this
  obtain ⟨out, hout⟩ := runSteps_isSome_iff.mpr hfits'
  have hlen' : out.length = src.length := (length_runSteps hout).trans hdst'
  refine ⟨_, _, mid, pdpResampleDouble_eq hint, pdpResampleHalve_eq hint, hmid, ?_⟩
  have hsame : out = src := by
    refine eq_of_planes (n := 0) (hlen'.trans hsrc) hsrc (fun k hk => by omega) fun i _ hi => ?_
    obtain ⟨row, hrow, k, hk, rfl⟩ := exists_mul_add hi
    rw [← hid (halveSteps a b)] at hout
    rw [← hid (doubleAll a b)] at hmid
    have hload := load_halve hrow hk (by decide) hout
    rw [Int.zero_add] at hload
    rw [hload]
    refine blockMean_of_eq fun t => ?_
    rw [load_double hrow hk t (by decide) hmid, Int.zero_add]
  rw [← hsame]
  exact hout

/-- A packet with room for its samples is the same after it has been a multi-channel packet;
and halving undoes doubling. -/
theorem multi_roundTrip {w h : Nat} (hp : Built .imageYCrCb w h d p) (hu : 0 < p.users)
    (hw : w % 2 = 0) (hh : h % 2 = 0) (hsize : p.data.size = 3 * (w * h)) :
    RoundTrip pdpPacketImageConvertYCrCbToMulti pdpPacketImageConvertMultiToYCrCb .imageYCrCb w h d
        p ∧
      (∀ q, Converts pdpPacketImageConvertYCrCbToMulti p q → Built .imageMulti w h 3 q) ∧
      (Fitting (imageSizeMchp w h 3) → ∃ q q', Converts pdpPacketImageConvertYCrCbToMulti p q ∧
        Converts pdpPacketImageConvertMultiToYCrCb q q') ∧
      ∀ (a b : Nat) (src dst dst' : List UInt8), 4 * (a * b) < 2 ^ 31 →
        src.length = 2 * (a * b) → dst.length = 8 * (a * b) → dst'.length = src.length →
        ∃ l l' mid, pdpResampleDouble a b = some l ∧ pdpResampleHalve (2 * a) (2 * b) = some l' ∧
          runSteps src l dst = some mid ∧ runSteps mid l' dst' = some src := by
  obtain ⟨a, rfl⟩ : ∃ a, w = 2 * a := ⟨w / 2, by omega⟩
  obtain ⟨b, rfl⟩ : ∃ b, h = 2 * b := ⟨h / 2, by omega⟩
  rw [area_eq _ _ rfl rfl] at hsize
  have hlt := p.data.size_lt
  have hsize' : p.data.size = 12 * (a * b) := by omega
  have harea : 12 * (a * b) + pdpHeaderSize < 2 ^ 31 := hsize' ▸ hlt
  have hheader : pdpHeaderSize = 256 := rfl
  obtain ⟨hYCrCb, hMulti⟩ := image_sizes (a := a) (b := b) (by omega)
  have hexpand := run_yCrCbToMulti hp (by omega)
  have hreduce : ∀ q, Built .imageMulti (2 * a) (2 * b) 3 q → ∀ s x, Held s x q →
      (pdpPacketImageConvertMultiToYCrCb x).run s =
        (convertInto x (PacketKind.imageYCrCb.new (2 * a) (2 * b) d)
          (some (reduceSteps a b))).run s :=
    fun q hq => run_multiToYCrCb hq (by decide) (by omega) d
  have hfits : Fits (expandSteps a b) p.data.size (imageSizeMchp (2 * a) (2 * b) 3) := by
    rw [hsize', hMulti]
    exact fits_expand
  have hfits' : Fits (reduceSteps a b) (imageSizeMchp (2 * a) (2 * b) 3) p.data.size := by
    rw [hsize', hMulti]
    exact fits_reduce (le_refl _)
  have hmulti : ∀ q, Converts pdpPacketImageConvertYCrCbToMulti p q →
      Built .imageMulti (2 * a) (2 * b) 3 q ∧ 0 < q.users := by
    intro q hq
    obtain ⟨hbuilt, husers, _⟩ :=
      ((converts_congr hexpand).mp hq).built hp.width_lt hp.height_lt (by decide)
    exact ⟨hbuilt, husers⟩
  refine ⟨?_, fun q hq => (hmulti q hq).1, fun hfit => ?_,
    fun a b src dst dst' h hsrc hdst hdst' => halve_double h hsrc hdst hdst'⟩
  · refine (roundTrip_iff hp hu (by decide) hexpand hreduce).mpr ?_
    have hcases : Refused (imageSizeMchp (2 * a) (2 * b) 3) ∨
        Fitting (imageSizeMchp (2 * a) (2 * b) 3) := by
      unfold Refused Fitting
      omega
    refine hcases.imp_right fun hfit => ⟨hfit, _, _, rfl, hfits, rfl, hfits', ?_⟩
    intro dst dst' mid out _ hdst' hmid hout
    exact reduce_expand (hsize'.trans (by omega)) ((length_runSteps hout).trans hdst') hmid hout
  · obtain ⟨q, hq, _⟩ := Converts.of_filled (PacketKind.imageMulti.constructs (2 * a) (2 * b) 3)
      hfit hu hfits (List.replicate _ 0) List.length_replicate
    have hq' := (converts_congr hexpand).mpr hq
    obtain ⟨hbuilt, husers⟩ := hmulti q hq'
    obtain ⟨q', hq'', _⟩ := Converts.of_filled (PacketKind.imageYCrCb.constructs (2 * a) (2 * b) d)
      (hp.size ▸ hlt) husers (l := reduceSteps a b)
      (by rw [hbuilt.size, ← hp.size]; exact hfits') (List.replicate _ 0) List.length_replicate
    exact ⟨q, q', hq', (converts_congr (hreduce q hbuilt)).mpr hq''⟩

/-- A packet of four pixels. -/
theorem multi_roundTrip_2x2 : RoundTrip pdpPacketImageConvertYCrCbToMulti
    pdpPacketImageConvertMultiToYCrCb .imageYCrCb 2 2 0
      (builtPacket .imageYCrCb 2 2 0 ⟨[1, 2, 3, 4, 5, 6, 7, 128, 9, 255, 11, 12], by decide⟩) :=
  (multi_roundTrip (built_header (by decide) (by decide) (by decide) (by decide)) Nat.one_pos rfl
    rfl (by decide)).1

/-- The size of an image of 2^32 pixels is computed as 0. -/
theorem not_multi_roundTrip : Built .imageYCrCb 65536 65536 0
      (builtPacket .imageYCrCb 65536 65536 0 ⟨[], by decide⟩) ∧
    ¬ RoundTrip pdpPacketImageConvertYCrCbToMulti pdpPacketImageConvertMultiToYCrCb .imageYCrCb
      65536 65536 0 (builtPacket .imageYCrCb 65536 65536 0 ⟨[], by decide⟩) := by
  refine ⟨built_header (by decide) (by decide) (by decide) (by decide), fun hrt => ?_⟩
  have hin : InBounds (fun packet => checked (intMul (toInt32 65536) (toInt32 65536))
      fun planeSize => convertInto packet (pdpPacketNewImageMchp 65536 65536 3)
        (yCrCbToMulti planeSize (toInt32 65536) (toInt32 65536)))
      (builtPacket .imageYCrCb 65536 65536 0 ⟨[], by decide⟩) :=
    (inBounds_congr fun s packet hheld => run_withHeader hheld _).mp hrt.there
  obtain ⟨_, hmul, _⟩ := (inBounds_checked_iff Nat.one_pos).mp hin
  obtain ⟨hint, rfl⟩ := intMul_eq_some.mp hmul
  revert hint
  decide

/-! ## Channels that are missing -/

/-- The planes of `q` are the first channels of `p`, halved but for the first one, and what `p`
has no channel for is zero. -/
structure KeepsChannels (w h d : Nat) (p q : Packet) : Prop where
  luma : ∀ k < 2 * (w * h), u8.load q.data.bytes k = u8.load p.data.bytes k
  chroma : ∀ c < 2, ∀ row < h / 2, ∀ k < w / 2,
    s16.load q.data.bytes (w * h + c * (w * h / 4) + (w / 2 * row + k) : Nat) =
      if c + 1 < d then blockMean p.data.bytes ((c + 1) * (w * h) : Nat) (w / 2) row k else 0

/-- The dimensions for which the conversion finds what it reads. -/
def ChannelsSuffice (w h d : Nat) : Prop :=
  IsInt (toInt32 w * toInt32 h) ∧ SafeFor (imageSizeYCrCb w h)
    (w * h = 0 ∨ 0 < toInt32 w ∧ 0 < toInt32 h ∧ 3 ≤ d ∧ 6 * (w * h) ≤ imageSizeMchp w h d)

theorem multiToYCrCb_zero {x y d : Int} (h : x * y = 0) : multiToYCrCb 0 x y d = some [] := by
  have hmul : intMul 0 2 = some 0 := by decide
  have hluma : memcpyInt 0 = some [] := rfl
  have hclear : ∀ off, clearInt off (0 / 2) = some [] := fun off => rfl
  unfold multiToYCrCb
  simp only [hmul, hluma, hclear, pdpResampleHalve_zero h, Option.bind_eq_bind, Option.bind_some,
    Option.pure_def, List.map_nil, ite_self, List.append_nil]

/-- A `u32` as an `int`. -/
theorem toInt32_cases {n : Nat} (hn : n < 2 ^ 32) :
    toInt32 n = n ∧ n < 2 ^ 31 ∨ toInt32 n = n - 2 ^ 32 ∧ 2 ^ 31 ≤ n := by
  rw [toInt32_eq]
  split <;> omega

/-- The size of a packet is at most that of its channels. -/
theorem imageSizeMchp_le (w h d : Nat) : imageSizeMchp w h d ≤ 2 * (w * h * d) := by
  unfold imageSizeMchp u32
  have h1 := Nat.mod_le (w * h % 2 ^ 32 * d % 2 ^ 32 * 2) (2 ^ 32)
  have h2 := Nat.mod_le (w * h % 2 ^ 32 * d) (2 ^ 32)
  have h3 := Nat.mul_le_mul_right d (Nat.mod_le (w * h) (2 ^ 32))
  omega

/-- Dimensions that are negative as `int`s are no dimensions of a loop. -/
theorem pdpResampleHalve_neg {x y : Int} (hx : x < 0) (hx2 : x % 2 = 0) (hy : y < 0) :
    pdpResampleHalve x y = none := by
  have hpos : 0 < y / 2 * (x / 2) := Int.mul_pos_of_neg_of_neg (by omega) (by omega)
  unfold pdpResampleHalve
  by_cases hint : IsInt (y / 2 * (x / 2))
  · have hmul : intMul (y / 2) (x / 2) = some _ := intMul_eq_some.mpr ⟨hint, rfl⟩
    simp only [hmul, Option.bind_eq_bind, Option.bind_some]
    exact if_pos ⟨hpos, by omega⟩
  · have hmul : intMul (y / 2) (x / 2) = none := if_neg hint
    simp only [hmul, Option.bind_eq_bind, Option.bind_none]

theorem multiToYCrCb_some {plane x y d : Int} {l : List Step} (hd : 1 ≤ d)
    (hl : multiToYCrCb plane x y d = some l) : IsInt (plane * 2) ∧ 0 ≤ plane * 2 ∧
      ∃ lh l₂, pdpResampleHalve x y = some lh ∧
        l = memcpySteps (plane * 2).toNat ++ lh.map (.shift plane plane) ++ l₂ ∧
        (2 ≤ d → l₂ = lh.map (.shift (2 * plane) (plane + plane / 4))) := by
  unfold multiToYCrCb at hl
  simp only [Option.bind_eq_bind, if_pos hd] at hl
  obtain ⟨n, hn, hl⟩ := Option.bind_eq_some_iff.mp hl
  obtain ⟨hint, rfl⟩ := intMul_eq_some.mp hn
  obtain ⟨luma, hluma, hl⟩ := Option.bind_eq_some_iff.mp hl
  unfold memcpyInt at hluma
  split at hluma
  · cases hluma
  · next h0 =>
      cases hluma
      obtain ⟨chroma₁, h₁, hl⟩ := Option.bind_eq_some_iff.mp hl
      rw [Option.pure_def, Option.bind_some] at hl
      by_cases hd2 : 2 ≤ d
      · rw [if_pos hd2, h₁, Option.bind_some, Option.bind_some] at hl
        cases hl
        exact ⟨hint, by omega, chroma₁, _, h₁, rfl, fun _ => rfl⟩
      · rw [if_neg hd2] at hl
        obtain ⟨chroma₂, _, hl⟩ := Option.bind_eq_some_iff.mp hl
        cases hl
        exact ⟨hint, by omega, chroma₁, _, h₁, rfl, fun hd2' => absurd hd2' hd2⟩

theorem channels_fit_iff {size : Nat} (hw : 2 * a < 2 ^ 32) (hh : 2 * b < 2 ^ 32)
    (hd : 1 ≤ toInt32 d) (hdlt : d < 2 ^ 32) (hsize : size = imageSizeMchp (2 * a) (2 * b) d)
    (hlt : size < 2 ^ 31) :
    (∃ l, multiToYCrCb (toInt32 (2 * a : Nat) * toInt32 (2 * b : Nat)) (toInt32 (2 * a : Nat))
        (toInt32 (2 * b : Nat)) (toInt32 d) = some l ∧
          Fits l size (imageSizeYCrCb (2 * a) (2 * b))) ↔
      2 * a * (2 * b) = 0 ∨ 0 < toInt32 (2 * a : Nat) ∧ 0 < toInt32 (2 * b : Nat) ∧ 3 ≤ d ∧
        6 * (2 * a * (2 * b)) ≤ size := by
  have harea : 2 * a * (2 * b) = 4 * (a * b) := area_eq _ _ rfl rfl
  have hd' : toInt32 d = d := by
    have := toInt32_cases hdlt
    omega
  -- a dimension is itself if it is positive, and even if it is not
  have hdim : ∀ n : Nat, 2 * n < 2 ^ 32 →
      (0 < toInt32 (2 * n : Nat) → toInt32 (2 * n : Nat) = 2 * n) ∧
        toInt32 (2 * n : Nat) % 2 = 0 := by
    intro n hn
    rcases toInt32_cases hn with ⟨he, _⟩ | ⟨he, _⟩
    · rw [he]
      omega
    · rw [he]
      omega
  constructor
  · rintro ⟨l, hl, hfits⟩
    refine or_iff_not_imp_left.mpr fun hne => ?_
    obtain ⟨hint, h0, lh, l₂, hhalve, hlist, hl₂⟩ := multiToYCrCb_some hd hl
    rw [hlist] at hfits
    have ha : 0 < a := Nat.pos_of_ne_zero (by
      rintro rfl
      exact hne (Nat.zero_mul _))
    have hb : 0 < b := Nat.pos_of_ne_zero (by
      rintro rfl
      exact hne (Nat.mul_zero _))
    have hwne : toInt32 (2 * a : Nat) ≠ 0 := by
      have := toInt32_cases hw
      omega
    have hhne : toInt32 (2 * b : Nat) ≠ 0 := by
      have := toInt32_cases hh
      omega
    rcases Int.lt_or_gt_of_ne hwne with hwneg | hwpos
    · rcases Int.lt_or_gt_of_ne hhne with hhneg | hhpos
      · rw [pdpResampleHalve_neg hwneg (hdim a hw).2 hhneg] at hhalve
        cases hhalve
      · have := Int.mul_neg_of_neg_of_pos hwneg hhpos
        omega
    · rcases Int.lt_or_gt_of_ne hhne with hhneg | hhpos
      · have := Int.mul_neg_of_pos_of_neg hwpos hhneg
        omega
      · refine ⟨hwpos, hhpos, ?_⟩
        have hw' := (hdim a hw).1 hwpos
        have hh' := (hdim b hh).1 hhpos
        have hplane : (2 * a : Int) * (2 * b) = (4 * (a * b) : Nat) := by
          push_cast
          ring
        rw [hw', hh'] at hhalve
        rw [hw', hh', hplane] at hint hfits hl₂
        rw [pdpResampleHalve_eq (by unfold IsInt at *; rw [Int.mul_comm]; push_cast at hint; omega)]
          at hhalve
        cases hhalve
        obtain ⟨hfits₁, hfits₂⟩ := fits_append.mp hfits
        have hend := end_of_fits_halve ha hb (fits_append.mp hfits₁).2
        have hle := imageSizeMchp_le (2 * a) (2 * b) d
        rw [harea] at hle hne ⊢
        have hd1 : d ≠ 1 := by
          rintro rfl
          omega
        have hd2 : 2 ≤ toInt32 d := by omega
        rw [hl₂ hd2] at hfits₂
        have hend' := end_of_fits_halve ha hb hfits₂
        have hd3 : d ≠ 2 := by
          rintro rfl
          omega
        omega
  · rintro (h0 | ⟨hwpos, hhpos, hd3, hle⟩)
    · have hz : toInt32 (2 * a : Nat) * toInt32 (2 * b : Nat) = 0 := by
        rcases Nat.mul_eq_zero.mp h0 with hz | hz
        · rw [hz]
          exact Int.zero_mul _
        · rw [hz]
          exact Int.mul_zero _
      refine ⟨[], ?_, fun st hst => by cases hst⟩
      have hzero := multiToYCrCb_zero (d := toInt32 d) hz
      rw [← hz] at hzero
      exact hzero
    · rw [harea] at hle
      obtain ⟨hplane, _⟩ := dims_of_area (a := a) (b := b) (by omega)
      refine ⟨reduceSteps a b, ?_, ?_⟩
      · rw [hplane]
        exact multiToYCrCb_eq (by omega) (by omega)
      · rw [(image_sizes (a := a) (b := b) (by omega)).1]
        exact fits_reduce (by omega)

theorem keepsChannels_of_run (hd : 3 ≤ d) {dst : List UInt8}
    (hrun : runSteps p.data.bytes (reduceSteps a b) dst = some q.data.bytes) :
    KeepsChannels (2 * a) (2 * b) d p q := by
  obtain ⟨hluma, ⟨d₁, m₁, hd₁, hm₁⟩, d₂, hd₂⟩ := planes_of_run once_halve once_halve hrun
  have harea : 2 * a * (2 * b) = 4 * (a * b) := area_eq _ _ rfl rfl
  constructor
  · rw [harea]
    exact hluma
  · intro c hc row hrow k hk
    rw [harea, show 2 * a / 2 = a by omega] at *
    have hrow' : row < b := by omega
    have hlt := add_mul_lt hrow' hk
    rcases Nat.lt_succ_iff_lt_or_eq.mp hc with h0 | rfl
    · obtain rfl : c = 0 := by omega
      have hat : ((4 * (a * b) + 0 * (4 * (a * b) / 4) + (a * row + k) : Nat) : Int) =
          (4 * (a * b) : Nat) + (a * row + k : Nat) := by omega
      rw [if_pos (by omega), Nat.zero_add, Nat.one_mul, hat, hm₁ _ (by omega) (by omega),
        load_halve hrow' hk (by omega) hd₁]
    · have hat : ((4 * (a * b) + 1 * (4 * (a * b) / 4) + (a * row + k) : Nat) : Int) =
          (4 * (a * b) + a * b : Nat) + (a * row + k : Nat) := by omega
      have hplane : (1 + 1) * (4 * (a * b)) = 8 * (a * b) := by ring
      rw [if_pos (by omega), hat, hplane, load_halve hrow' hk (by omega) hd₂]

theorem run_multiToYCrCb_checked (hp : Built .imageMulti (2 * a) (2 * b) d p) (s : Pool)
    (packet : Int) (hheld : Held s packet p) : (pdpPacketImageConvertMultiToYCrCb packet).run s =
      (checked (intMul (toInt32 (2 * a : Nat)) (toInt32 (2 * b : Nat))) fun planeSize =>
        convertInto packet (PacketKind.imageYCrCb.new (2 * a) (2 * b) d)
          (multiToYCrCb planeSize (toInt32 (2 * a : Nat)) (toInt32 (2 * b : Nat))
            (toInt32 d))).run s := by
  refine (run_withHeader hheld _).trans ?_
  rw [hp.width, hp.height, hp.depth rfl, PacketKind.new]

theorem inBounds_multiToYCrCb (hp : Built .imageMulti (2 * a) (2 * b) d p) (hu : 0 < p.users)
    (hd : 1 ≤ toInt32 d) :
    InBounds pdpPacketImageConvertMultiToYCrCb p ↔ ChannelsSuffice (2 * a) (2 * b) d := by
  have hsize : p.data.size = imageSizeMchp (2 * a) (2 * b) d := hp.size
  have hfit := channels_fit_iff hp.width_lt hp.height_lt hd hp.depth_lt hsize
    (Nat.lt_of_le_of_lt (Nat.le_add_right _ _) p.data.size_lt)
  have hsafe : ∀ planeSize, InBounds (fun packet => convertInto packet
      (PacketKind.imageYCrCb.new (2 * a) (2 * b) d) (multiToYCrCb planeSize
        (toInt32 (2 * a : Nat)) (toInt32 (2 * b : Nat)) (toInt32 d))) p ↔
      SafeFor (imageSizeYCrCb (2 * a) (2 * b)) (∃ l, multiToYCrCb planeSize
        (toInt32 (2 * a : Nat)) (toInt32 (2 * b : Nat)) (toInt32 d) = some l ∧
          Fits l p.data.size (imageSizeYCrCb (2 * a) (2 * b))) :=
    fun planeSize => inBounds_convertInto (PacketKind.imageYCrCb.constructs (2 * a) (2 * b) d)
      (PacketKind.imageYCrCb.dataSize_lt (2 * a) (2 * b) d) hu _
  refine (inBounds_congr (run_multiToYCrCb_checked hp)).trans ((inBounds_checked_iff hu).trans ?_)
  unfold ChannelsSuffice
  rw [← hsize]
  constructor
  · rintro ⟨planeSize, hmul, hin⟩
    obtain ⟨hint, hplane⟩ := intMul_eq_some.mp hmul
    rw [hplane] at hint hin
    exact ⟨hint, (safeFor_congr fun _ => hfit).mp ((hsafe _).mp hin)⟩
  · rintro ⟨hint, hok⟩
    exact ⟨_, intMul_eq_some.mpr ⟨hint, rfl⟩, (hsafe _).mpr ((safeFor_congr fun _ => hfit).mpr hok)⟩

/-- A multi-channel packet with a channel is converted inside of its channels, and to those that
it has, exactly if it has three of them, or nothing is converted. -/
theorem multiToYCrCb_iff {w h : Nat} (hp : Built .imageMulti w h d p) (hu : 0 < p.users)
    (hw : w % 2 = 0) (hh : h % 2 = 0) (hd : 1 ≤ toInt32 d) :
    (InBounds pdpPacketImageConvertMultiToYCrCb p ∧
        ∀ q, Converts pdpPacketImageConvertMultiToYCrCb p q → KeepsChannels w h d p q) ↔
      ChannelsSuffice w h d := by
  obtain ⟨a, rfl⟩ : ∃ a, w = 2 * a := ⟨w / 2, by omega⟩
  obtain ⟨b, rfl⟩ : ∃ b, h = 2 * b := ⟨h / 2, by omega⟩
  have hin := inBounds_multiToYCrCb hp hu hd
  refine ⟨fun h => hin.mp h.1, fun h => ⟨hin.mpr h, fun q hq => ?_⟩⟩
  obtain ⟨hint, hok⟩ := h
  have hmul : intMul (toInt32 (2 * a : Nat)) (toInt32 (2 * b : Nat)) = some _ :=
    intMul_eq_some.mpr ⟨hint, rfl⟩
  have hcode := run_multiToYCrCb_checked hp
  rw [hmul] at hcode
  have hq' := (converts_congr hcode).mp hq
  have hfitting : Fitting (imageSizeYCrCb (2 * a) (2 * b)) :=
    (Converts.filled (PacketKind.imageYCrCb.constructs (2 * a) (2 * b) d)
      (PacketKind.imageYCrCb.dataSize_lt (2 * a) (2 * b) d) hq').1
  obtain ⟨_, _, l, dst, hl, _, hrun⟩ := Converts.built hp.width_lt hp.height_lt hp.depth_lt hq'
  have harea : 2 * a * (2 * b) = 4 * (a * b) := area_eq _ _ rfl rfl
  rcases (hok.resolve_left fun hr => not_fitting_of_refused hr hfitting).2 with
    h0 | ⟨_, _, hd3, hle⟩
  · constructor
    · intro k hk
      omega
    · intro c _ row hrow k hk
      have := add_mul_lt (show row < b by omega) (show k < a by omega)
      omega
  · rw [← show p.data.size = imageSizeMchp (2 * a) (2 * b) d from hp.size, harea] at hle
    have hlt := p.data.size_lt
    have hsize : 24 * (a * b) < 2 ^ 31 := by
      have hle' : 6 * (4 * (a * b)) ≤ p.data.bytes.length := hle
      omega
    obtain ⟨hplane, _⟩ := dims_of_area (a := a) (b := b) (by omega)
    have hd' : 2 ≤ toInt32 d := by
      have hdlt := hp.depth_lt
      have := toInt32_cases hdlt
      omega
    rw [hplane, multiToYCrCb_eq (by omega) hd'] at hl
    cases hl
    exact keepsChannels_of_run hd3 hrun

/-- Three channels of four pixels. -/
theorem multiToYCrCb_iff_three :
    (InBounds pdpPacketImageConvertMultiToYCrCb
        (builtPacket .imageMulti 2 2 3 ⟨List.replicate 24 7, by decide⟩) ∧
      ∀ q, Converts pdpPacketImageConvertMultiToYCrCb
        (builtPacket .imageMulti 2 2 3 ⟨List.replicate 24 7, by decide⟩) q →
          KeepsChannels 2 2 3 (builtPacket .imageMulti 2 2 3 ⟨List.replicate 24 7, by decide⟩) q) ↔
      ChannelsSuffice 2 2 3 :=
  multiToYCrCb_iff (built_header (by decide) (by decide) (by decide) (by decide)) Nat.one_pos rfl
    rfl (by decide)

/-- One channel: the samples of the second one are looked for behind it. -/
theorem not_multiToYCrCb_one : Built .imageMulti 2 2 1
      (builtPacket .imageMulti 2 2 1 ⟨List.replicate 8 7, by decide⟩) ∧
    ¬ InBounds pdpPacketImageConvertMultiToYCrCb
      (builtPacket .imageMulti 2 2 1 ⟨List.replicate 8 7, by decide⟩) := by
  have hbuilt : Built .imageMulti (2 * 1) (2 * 1) 1
      (builtPacket .imageMulti 2 2 1 ⟨List.replicate 8 7, by decide⟩) :=
    built_header (by decide) (by decide) (by decide) (by decide)
  refine ⟨hbuilt, fun hin => ?_⟩
  rcases ((inBounds_multiToYCrCb hbuilt Nat.one_pos (by decide)).mp hin).2 with
    hr | ⟨_, h0 | ⟨_, _, h3, _⟩⟩
  · revert hr
    decide
  · revert h0
    decide
  · revert h3
    decide

end Multi

end PureDataPacket
