/-
# `PureDataPacket.Image.Noise` — the random numbers of the assembly

`pixel_rand_s16` and `pixel_randmix_s16` shift a register of 16 bits in each of four lanes, and put
the `xor` of four of its bits behind it.  The numbers in a lane repeat after 65535 vectors and not
before, whatever number but zero they begin with, so all numbers but zero come by.

| | |
| :-- | :-- |
| `nextRandom` | the number that comes after another |
| `noise_period` | the numbers repeat after 65535 steps |
| `random_noise` | what is in the image, and what the seeds are then |
| `randmix_period` | how many pixels of each image are mixed in |
-/
import Mathlib.Data.Int.Interval
import Mathlib.Order.Interval.Finset.Nat
import Mathlib.Tactic.NormNum.Prime
import PureDataPacket.Image.Agreement
import PureDataPacket.Image.Biquad
import PureDataPacket.Image.Packing
import PureDataPacket.Lib.XorLinear

namespace PureDataPacket

/-! ## The routines -/

/-- `pcmpgtw`: the register that is compared is the second operand. -/
def pcmpgtw : M64 → M64 → M64 := M64.map₂ fun a b =>
  if a.toInt > b.toInt then BitVec.allOnes 16 else 0

namespace Mmx

/-- `pcmpeqw` of a register with itself, and `psrlw $15`. -/
def lowestBits : M64 :=
  let mm3 := filled
  psrlw 15 mm3

def nextVector (mm6 : M64) : M64 :=
  let mm4 := psrlw 15 mm6
  let mm5 := psrlw 14 mm6
  let mm4 := M64.map₂ (· ^^^ ·) mm4 mm5
  let mm5 := psrlw 12 mm6
  let mm4 := M64.map₂ (· ^^^ ·) mm4 mm5
  let mm5 := psrlw 3 mm6
  let mm4 := M64.map₂ (· ^^^ ·) mm4 mm5
  let mm6 := psllw 1 mm6
  let mm4 := M64.map₂ (· &&& ·) mm4 lowestBits
  M64.map₂ (· ||| ·) mm6 mm4

/-- `pixel_rand_s16`: the pixels, and the seeds. -/
def pixelRandS16 (nb4pixelVectors : Nat) (seed : M64) (dst : List S16) :
    Option (List S16 × M64) :=
  rounds (fun v (dst, mm6) =>
    let mm6 := nextVector mm6
    if 4 * v + 4 ≤ dst.length then some (M64.store dst v mm6, mm6) else none)
    (loopCount nb4pixelVectors) 0 (dst, seed)

/-- `pixel_randmix_s16`: the images, and the seeds. -/
def pixelRandmixS16 (nb4pixelVectors : Nat) (seed threshold : M64) (im : Images) :
    Option (Images × M64) :=
  rounds (fun v (im, mm6) => do
    let mm1 ← M64.load im.second v
    let mm0 ← M64.load im.image v
    let mm2 := pcmpgtw mm6 threshold
    let mm5 := mm2
    let mm2 := M64.map₂ (· &&& ·) mm2 mm0
    let mm5 := M64.map₂ (fun a b => ~~~a &&& b) mm5 mm1
    let mm5 := M64.map₂ (· ||| ·) mm2 mm5
    return ({ im with image := M64.store im.image v mm5 }, nextVector mm6))
    (loopCount nb4pixelVectors) 0 (im, seed)

/-- `pdp_imageproc_random_process`. -/
def pdpImageprocRandomProcess (seed : M64) (width height : Nat) (image : List S16) :
    Option (List S16 × M64) :=
  pixelRandS16 (u32 (width * height) / 4) seed image

/-- `pdp_imageproc_randmix_process`. -/
def pdpImageprocRandmixProcess (seed threshold : M64) (width height : Nat) (im : Images) :
    Option (Images × M64) :=
  pixelRandmixS16 (u32 (width * height) / 4) seed threshold im

end Mmx

/-! ## One lane -/

def nextRandom (x : S16) : S16 :=
  (x <<< 1) ||| ((x >>> 15 ^^^ x >>> 14 ^^^ x >>> 12 ^^^ x >>> 3) &&& 1)

theorem nextRandom_linear : XorLinear nextRandom := by
  intro x y
  apply BitVec.eq_of_getLsbD_eq
  intro i hi
  have hone : (1 : S16).getLsbD i = decide (i = 0) := by
    rcases Nat.eq_zero_or_pos i with rfl | hpos
    · rfl
    · rw [decide_eq_false (Nat.ne_of_gt hpos)]
      have hge : (1 : S16) = BitVec.twoPow 16 0 := rfl
      rw [hge, BitVec.getLsbD_twoPow, decide_eq_false (show ¬0 = i by omega), Bool.and_false]
  simp only [nextRandom, BitVec.getLsbD_or, BitVec.getLsbD_and, BitVec.getLsbD_xor,
    BitVec.getLsbD_ushiftRight, BitVec.getLsbD_shiftLeft, hone, hi, decide_true, Bool.true_and]
  rcases Nat.eq_zero_or_pos i with rfl | hpos
  · rw [decide_eq_true Nat.zero_lt_one, decide_eq_true rfl]
    simp only [Bool.not_true, Bool.false_and, Bool.false_or, Bool.and_true]
    generalize x.getLsbD (15 + 0) = a₁, x.getLsbD (14 + 0) = a₂, x.getLsbD (12 + 0) = a₃,
      x.getLsbD (3 + 0) = a₄, y.getLsbD (15 + 0) = b₁, y.getLsbD (14 + 0) = b₂,
      y.getLsbD (12 + 0) = b₃, y.getLsbD (3 + 0) = b₄
    revert a₁ a₂ a₃ a₄ b₁ b₂ b₃ b₄
    decide
  · rw [decide_eq_false (show ¬i < 1 by omega), decide_eq_false (show ¬i = 0 by omega)]
    simp only [Bool.not_false, Bool.true_and, Bool.and_false, Bool.or_false]

theorem columns_nextRandom : columns nextRandom^[2 ^ 16] = columns nextRandom := by
  have hbits : ofBits (List.replicate 16 false ++ [true]) = 2 ^ 16 := by decide
  rw [← hbits, ← columns_iterate nextRandom_linear]
  decide +kernel

theorem iterate_nextRandom (x : S16) : nextRandom^[2 ^ 16] x = nextRandom x :=
  congrFun (eq_of_columns (nextRandom_linear.iterate _) nextRandom_linear columns_nextRandom) x

theorem nextRandom_eq_zero {x : S16} (h : nextRandom x = 0#16) : x = 0#16 := by
  refine eq_zero_of_inverse nextRandom_linear [
    0x8000, 1, 2, 4, 0x8008, 0x10, 0x20, 0x40, 0x80, 0x100, 0x200, 0x400, 0x800, 0x9000, 0x2000,
    0xc000] ?_ h
  decide +kernel

theorem nextRandom_injective : Function.Injective nextRandom := by
  intro x y h
  have hxor : nextRandom (x ^^^ y) = 0#16 := by
    rw [nextRandom_linear, h, BitVec.xor_self]
  exact BitVec.xor_eq_zero_iff.mp (nextRandom_eq_zero hxor)

theorem repeats (x : S16) : nextRandom^[65535] x = x := by
  refine nextRandom_injective ?_
  have hpower : 2 ^ 16 = 65535 + 1 := by decide
  have hnext := iterate_nextRandom x
  rw [hpower, Function.iterate_succ_apply'] at hnext
  exact hnext

/-! ### The period

The primes in 65535 are 3, 5, 17 and 257.  Without one of them the power moves every word but zero,
as the map that undoes the difference shows. -/

theorem moves_without_3 {x : S16} (hx : x ≠ 0#16) : nextRandom^[21845] x ≠ x := by
  have hbits : ofBits ((List.replicate 7 [true, false]).flatten ++ [true]) = 21845 := by decide
  rw [← hbits]
  refine iterate_ne_self nextRandom_linear [
    0x14a, 0x295, 0x52a, 0xa55, 0x15e0, 0x2bc1, 0x5782, 0xaf04, 0x5e09, 0xbc13, 0x7826, 0xf04c,
    0xe098, 0xc07b, 0x80f7, 0xa5] ?_ hx
  decide +kernel

theorem moves_without_5 {x : S16} (hx : x ≠ 0#16) : nextRandom^[13107] x ≠ x := by
  have hbits : ofBits ((List.replicate 3 [true, true, false, false]).flatten ++ [true, true]) =
      13107 := by decide
  rw [← hbits]
  refine iterate_ne_self nextRandom_linear [
    0x1b, 0x37, 0x6e, 0xdd, 0x1a0, 0x340, 0x680, 0xd00, 0x1a00, 0x3401, 0x6803, 0xd007, 0xa00f,
    0x4005, 0x800b, 0xd] ?_ hx
  decide +kernel

theorem moves_without_17 {x : S16} (hx : x ≠ 0#16) : nextRandom^[3855] x ≠ x := by
  have hbits : ofBits (List.replicate 4 true ++ List.replicate 4 false ++ List.replicate 4 true) =
      3855 := by decide
  rw [← hbits]
  refine iterate_ne_self nextRandom_linear [
    0x16af, 0x2d5e, 0x5abd, 0xb57b, 0x7c58, 0xf8b1, 0xf163, 0xe2c7, 0xc58e, 0x8b1d, 0x163a, 0x2c74,
    0x58e8, 0xa77e, 0x4efc, 0x8b57] ?_ hx
  decide +kernel

theorem moves_without_257 {x : S16} (hx : x ≠ 0#16) : nextRandom^[255] x ≠ x := by
  have hbits : ofBits (List.replicate 8 true) = 255 := by decide
  rw [← hbits]
  refine iterate_ne_self nextRandom_linear [
    0x5834, 0xb068, 0x60d1, 0xc1a3, 0xdb72, 0xb6e5, 0x6dca, 0xdb94, 0xb729, 0x6e53, 0xdca7, 0xb94f,
    0x729f, 0xbd0b, 0x7a17, 0xac1a] ?_ hx
  decide +kernel

theorem noise_period {x : S16} (hx : x ≠ 0#16) : Function.minimalPeriod nextRandom x = 65535 := by
  refine minimalPeriod_eq_of_prime (repeats x) fun p hp hdvd => ?_
  have hfactors : 65535 = 3 * (5 * (17 * 257)) := by decide
  have h3 : Nat.Prime 3 := by decide
  have h5 : Nat.Prime 5 := by decide
  have h17 : Nat.Prime 17 := by decide
  have h257 : Nat.Prime 257 := by norm_num
  rw [hfactors, hp.dvd_mul, hp.dvd_mul, hp.dvd_mul, Nat.prime_dvd_prime_iff_eq hp h3,
    Nat.prime_dvd_prime_iff_eq hp h5, Nat.prime_dvd_prime_iff_eq hp h17,
    Nat.prime_dvd_prime_iff_eq hp h257] at hdvd
  rcases hdvd with rfl | rfl | rfl | rfl
  · exact moves_without_3 hx
  · exact moves_without_5 hx
  · exact moves_without_17 hx
  · exact moves_without_257 hx

theorem iterate_ne_zero {x : S16} (hx : x ≠ 0#16) (k : Nat) : nextRandom^[k] x ≠ 0#16 := by
  induction k with
  | zero => exact hx
  | succ k ih =>
      rw [Function.iterate_succ_apply']
      exact fun h => ih (nextRandom_eq_zero h)

/-- In 65535 steps each number but zero comes by once. -/
theorem occurs_once {x y : S16} (hx : x ≠ 0#16) (hy : y ≠ 0#16) :
    ∃ k < 65535, nextRandom^[k] x = y ∧ ∀ j < 65535, nextRandom^[j] x = y → j = k := by
  have hinj : ∀ j < 65535, ∀ k < 65535, nextRandom^[j] x = nextRandom^[k] x → j = k := by
    intro j hj k hk h
    have hperiod := noise_period hx
    exact Function.iterate_injOn_Iio_minimalPeriod (hperiod ▸ hj) (hperiod ▸ hk) h
  have hsubset : (Finset.range 65535).image (fun k => (nextRandom^[k] x).toNat) ⊆
      Finset.Ioo 0 65536 := by
    intro m hm
    obtain ⟨k, _, rfl⟩ := Finset.mem_image.mp hm
    refine Finset.mem_Ioo.mpr ⟨Nat.pos_of_ne_zero fun hzero => iterate_ne_zero hx k ?_, BitVec.isLt _⟩
    exact BitVec.eq_of_toNat_eq hzero
  have hcard : ((Finset.range 65535).image fun k => (nextRandom^[k] x).toNat).card = 65535 := by
    rw [Finset.card_image_of_injOn, Finset.card_range]
    intro j hj k hk h
    exact hinj j (Finset.mem_range.mp hj) k (Finset.mem_range.mp hk) (BitVec.eq_of_toNat_eq h)
  have hall := Finset.eq_of_subset_of_card_le hsubset (by rw [hcard, Nat.card_Ioo])
  have hmem : y.toNat ∈ Finset.Ioo 0 65536 := by
    refine Finset.mem_Ioo.mpr ⟨Nat.pos_of_ne_zero fun hzero => hy ?_, BitVec.isLt _⟩
    exact BitVec.eq_of_toNat_eq hzero
  rw [← hall] at hmem
  obtain ⟨k, hk, hky⟩ := Finset.mem_image.mp hmem
  have hk' := Finset.mem_range.mp hk
  have heq : nextRandom^[k] x = y := BitVec.eq_of_toNat_eq hky
  exact ⟨k, hk', heq, fun j hj h => hinj j hj k hk' (h.trans heq.symm)⟩

/-! ## The images -/

namespace M64

theorem lane_map (f : S16 → S16) (m : M64) (l : Fin 4) : (map f m).lane l = f (m.lane l) := by
  match l with
  | 0 => rfl
  | 1 => rfl
  | 2 => rfl
  | 3 => rfl

section Store

variable {image : List S16} {v : Nat} {m : M64}

theorem length_store : (store image v m).length = image.length := by
  simp only [store, List.length_set]

theorem getElem?_store_self (h : 4 * v + 4 ≤ image.length) (l : Fin 4) :
    (store image v m)[4 * v + l]? = some (m.lane l) := by
  unfold store
  match l with
  | 0 => simp [lane, show 4 * v < image.length by omega]
  | 1 => simp [lane, show 4 * v + 1 < image.length by omega]
  | 2 => simp [lane, show 4 * v + 2 < image.length by omega]
  | 3 => simp [lane, show 4 * v + 3 < image.length by omega]

theorem getElem?_store_other {i : Nat} (h : i < 4 * v ∨ 4 * v + 4 ≤ i) :
    (store image v m)[i]? = image[i]? := by
  unfold store
  rw [List.getElem?_set_ne (by omega), List.getElem?_set_ne (by omega),
    List.getElem?_set_ne (by omega), List.getElem?_set_ne (by omega)]

theorem load_eq_some (h : 4 * v + 4 ≤ image.length) :
    ∃ m, load image v = some m ∧ ∀ l : Fin 4, image[4 * v + l]? = some (m.lane l) := by
  obtain ⟨m, hload, h0, h1, h2, h3⟩ := load_eq h
  refine ⟨m, hload, fun l => ?_⟩
  match l with
  | 0 => exact h0
  | 1 => exact h1
  | 2 => exact h2
  | 3 => exact h3

end Store

end M64

namespace Mmx

theorem lane_nextVector (m : M64) (l : Fin 4) :
    (nextVector m).lane l = nextRandom (m.lane l) := by
  have hones : lowestBits.lane l = 1 := by
    revert l
    decide
  simp only [nextVector, psrlw, psllw, M64.lane_map, M64.lane_map₂, hones]
  rfl

theorem lane_iterate (m : M64) (n : Nat) (l : Fin 4) :
    (nextVector^[n] m).lane l = nextRandom^[n] (m.lane l) := by
  induction n with
  | zero => rfl
  | succ n ih =>
      rw [Function.iterate_succ_apply', Function.iterate_succ_apply', lane_nextVector, ih]

/-- What some rounds of `pixel_rand_s16` do. -/
theorem rounds_rand (n : Nat) : ∀ (i : Nat) (dst : List S16) (mm6 : M64),
    4 * (i + n) ≤ dst.length → ∃ image, rounds (fun v (dst, mm6) =>
        let mm6 := nextVector mm6
        if 4 * v + 4 ≤ dst.length then some (M64.store dst v mm6, mm6) else none)
          n i (dst, mm6) = some (image, nextVector^[n] mm6) ∧
      image.length = dst.length ∧
      (∀ j, j < 4 * i ∨ 4 * (i + n) ≤ j → image[j]? = dst[j]?) ∧
      ∀ k < n, ∀ l : Fin 4, image[4 * (i + k) + l]? = some ((nextVector^[k + 1] mm6).lane l) := by
  induction n with
  | zero =>
      exact fun i dst mm6 _ =>
        ⟨dst, rfl, rfl, fun _ _ => rfl, fun k hk => absurd hk (Nat.not_lt_zero k)⟩
  | succ n ih =>
      intro i dst mm6 hfits
      have hstore : 4 * i + 4 ≤ dst.length := by omega
      have hlength : (M64.store dst i (nextVector mm6)).length = dst.length := M64.length_store
      obtain ⟨image, hrun, hsize, hkept, hdone⟩ := ih (i + 1)
        (M64.store dst i (nextVector mm6)) (nextVector mm6) (by rw [hlength]; omega)
      refine ⟨image, ?_, hsize.trans hlength, fun j hj => ?_, fun k hk l => ?_⟩
      · unfold rounds
        simp only [if_pos hstore, Option.bind_some]
        exact hrun
      · rw [hkept j (by omega), M64.getElem?_store_other (by omega)]
      · cases k with
        | zero =>
            have hl := l.isLt
            rw [Nat.add_zero, hkept _ (by omega), M64.getElem?_store_self hstore]
            rfl
        | succ k =>
            have hindex : i + (k + 1) = i + 1 + k := by omega
            rw [hindex, hdone k (by omega) l]
            rfl

/-- What a pixel is mixed to: `left`, if the number is above the threshold. -/
def mixed (threshold number left right : S16) : S16 :=
  if threshold.toInt < number.toInt then left else right

theorem lane_mixed (threshold number left right : M64) (l : Fin 4) :
    (M64.map₂ (· ||| ·) (M64.map₂ (· &&& ·) (pcmpgtw number threshold) left)
      (M64.map₂ (fun a b => ~~~a &&& b) (pcmpgtw number threshold) right)).lane l =
        mixed (threshold.lane l) (number.lane l) (left.lane l) (right.lane l) := by
  have hgate : ∀ (c : Prop) [Decidable c] (a b : S16),
      (if c then BitVec.allOnes 16 else 0) &&& a |||
        ~~~(if c then BitVec.allOnes 16 else 0) &&& b = if c then a else b := by
    intro c _ a b
    split
    · rw [BitVec.allOnes_and, BitVec.not_allOnes, BitVec.zero_and, BitVec.or_zero]
    · have hnot : ~~~(0 : S16) = BitVec.allOnes 16 := by decide
      rw [hnot, BitVec.allOnes_and]
      have hzero : (0 : S16) &&& a = 0#16 := BitVec.zero_and
      rw [hzero, BitVec.zero_or]
  simp only [pcmpgtw, M64.lane_map₂]
  exact hgate _ _ _

/-- What some rounds of `pixel_randmix_s16` do. -/
theorem rounds_randmix (threshold : M64) (n : Nat) : ∀ (i : Nat) (im : Images) (mm6 : M64),
    4 * (i + n) ≤ im.image.length → 4 * (i + n) ≤ im.second.length →
      ∃ image, rounds (fun v (im, mm6) => do
        let mm1 ← M64.load im.second v
        let mm0 ← M64.load im.image v
        let mm2 := pcmpgtw mm6 threshold
        let mm5 := mm2
        let mm2 := M64.map₂ (· &&& ·) mm2 mm0
        let mm5 := M64.map₂ (fun a b => ~~~a &&& b) mm5 mm1
        let mm5 := M64.map₂ (· ||| ·) mm2 mm5
        return ({ im with image := M64.store im.image v mm5 }, nextVector mm6))
          n i (im, mm6) = some ({ im with image := image }, nextVector^[n] mm6) ∧
      image.length = im.image.length ∧
      (∀ j, j < 4 * i ∨ 4 * (i + n) ≤ j → image[j]? = im.image[j]?) ∧
      ∀ k < n, ∀ l : Fin 4, ∃ left right, im.image[4 * (i + k) + l]? = some left ∧
        im.second[4 * (i + k) + l]? = some right ∧ image[4 * (i + k) + l]? =
          some (mixed (threshold.lane l) ((nextVector^[k] mm6).lane l) left right) := by
  induction n with
  | zero =>
      exact fun i im mm6 _ _ =>
        ⟨im.image, rfl, rfl, fun _ _ => rfl, fun k hk => absurd hk (Nat.not_lt_zero k)⟩
  | succ n ih =>
      intro i im mm6 hfits hsecond
      obtain ⟨mm1, hright, hright'⟩ := @M64.load_eq_some im.second i (by omega)
      obtain ⟨mm0, hleft, hleft'⟩ := @M64.load_eq_some im.image i (by omega)
      obtain ⟨mm5, hmm5⟩ : ∃ mm5, mm5 = M64.map₂ (· ||| ·)
          (M64.map₂ (· &&& ·) (pcmpgtw mm6 threshold) mm0)
          (M64.map₂ (fun a b => ~~~a &&& b) (pcmpgtw mm6 threshold) mm1) := ⟨_, rfl⟩
      have hlength : (M64.store im.image i mm5).length = im.image.length := M64.length_store
      -- Where the images are one, the pixels still to be done are as they were.
      have hbehind : ∀ j, 4 * i + 4 ≤ j →
          ({ im with image := M64.store im.image i mm5 } : Images).second[j]? = im.second[j]? := by
        intro j hj
        unfold Images.second
        cases im.image2 with
        | none => exact M64.getElem?_store_other (Or.inr hj)
        | some other => rfl
      have hlength' : ({ im with image := M64.store im.image i mm5 } : Images).second.length =
          im.second.length := by
        unfold Images.second
        cases im.image2 with
        | none => exact hlength
        | some other => rfl
      obtain ⟨image, hrun, hsize, hkept, hdone⟩ := ih (i + 1)
        { im with image := M64.store im.image i mm5 } (nextVector mm6)
        (by show _ ≤ (M64.store im.image i mm5).length; rw [hlength]; omega)
        (by rw [hlength']; omega)
      refine ⟨image, ?_, hsize.trans hlength, fun j hj => ?_, fun k hk l => ?_⟩
      · unfold rounds
        simp only [hright, hleft, Option.bind_eq_bind, Option.bind_some, ← hmm5]
        exact hrun
      · rw [hkept j (by omega)]
        exact M64.getElem?_store_other (by omega)
      · cases k with
        | zero =>
            have hl := l.isLt
            refine ⟨mm0.lane l, mm1.lane l, hleft' l, hright' l, ?_⟩
            rw [Nat.add_zero, hkept _ (by omega), Function.iterate_zero_apply, ← lane_mixed, ← hmm5]
            exact M64.getElem?_store_self (by omega) l
        | succ k =>
            have hindex : i + (k + 1) = i + 1 + k := by omega
            obtain ⟨left, right, hl, hr, hk⟩ := hdone k (by omega) l
            rw [hindex]
            refine ⟨left, right, ?_, ?_, hk⟩
            · rw [← hl]
              exact (M64.getElem?_store_other (by omega)).symm
            · rw [← hr, hbehind _ (by omega)]

/-! ### Calls one after another -/

/-- Images that are processed one after another: a call goes on with the seeds that the call before
has left. -/
def seeded {α β : Type} (process : α → M64 → Option (β × M64)) :
    List α → M64 → Option (List β × M64)
  | [], seed => some ([], seed)
  | image :: images, seed => do
      let (done, seed) ← process image seed
      let (dones, seed) ← seeded process images seed
      return (done :: dones, seed)

/-- `pdp_imageproc_random_process` of one image after another. -/
def randomImages : List (Nat × Nat × List S16) → M64 → Option (List (List S16) × M64) :=
  seeded fun (width, height, image) seed => pdpImageprocRandomProcess seed width height image

/-- `pdp_imageproc_randmix_process` of one pair of images after another. -/
def randmixImages (threshold : M64) :
    List (Nat × Nat × Images) → M64 → Option (List Images × M64) :=
  seeded fun (width, height, im) seed => pdpImageprocRandmixProcess seed threshold width height im

theorem getElem?_append_vectors {image rest : List S16} {n N v : Nat} (h : image.length = 4 * n)
    (l : Fin 4) (value : Nat → S16) (himage : ∀ v < n, image[4 * v + l]? = some (value v))
    (hrest : ∀ v < N, rest[4 * v + l]? = some (value (n + v))) (hv : v < n + N) :
    (image ++ rest)[4 * v + l]? = some (value v) := by
  have hl := l.isLt
  rcases Nat.lt_or_ge v n with hlt | hge
  · rw [List.getElem?_append_left (by omega), himage v hlt]
  · have hindex : 4 * v + ↑l - image.length = 4 * (v - n) + l := by omega
    have hback : n + (v - n) = v := by omega
    rw [List.getElem?_append_right (by omega), hindex, hrest _ (by omega), hback]

/-- What one call of `pdp_imageproc_random_process` does. -/
theorem random_call {seed : M64} {width height : Nat} {image : List S16}
    (h : Sized width height ⟨image, none⟩) (hpos : 0 < u32 (width * height)) :
    ∃ done, pdpImageprocRandomProcess seed width height image =
        some (done, nextVector^[image.length / 4] seed) ∧
      done.length = 4 * (image.length / 4) ∧
      ∀ v < image.length / 4, ∀ l : Fin 4,
        done[4 * v + l]? = some (nextRandom^[v + 1] (seed.lane l)) := by
  have hlength : image.length = u32 (width * height) := h.image
  obtain ⟨q, hq⟩ := h.quads
  have hlt := u32_lt (width * height)
  have hn : u32 (width * height) / 4 = image.length / 4 := by rw [hlength]
  obtain ⟨done, hrun, hsize, -, hdone⟩ := rounds_rand (image.length / 4) 0 image seed (by omega)
  refine ⟨done, ?_, by omega, fun v hv l => ?_⟩
  · unfold pdpImageprocRandomProcess pixelRandS16
    rw [hn, loopCount_of_pos (by omega) (by omega)]
    exact hrun
  · rw [← lane_iterate, ← hdone v hv l, Nat.zero_add]

theorem random_calls {planes : List (Nat × Nat × List S16)}
    (h : ∀ plane ∈ planes, Sized plane.1 plane.2.1 ⟨plane.2.2, none⟩ ∧
      0 < u32 (plane.1 * plane.2.1)) (seed : M64) :
    ∃ images N, randomImages planes seed = some (images, nextVector^[N] seed) ∧
      images.flatten.length = 4 * N ∧ (planes.map fun plane => plane.2.2.length).sum = 4 * N ∧
      ∀ v < N, ∀ l : Fin 4,
        images.flatten[4 * v + l]? = some (nextRandom^[v + 1] (seed.lane l)) := by
  induction planes generalizing seed with
  | nil => exact ⟨[], 0, rfl, rfl, rfl, fun v hv => absurd hv (Nat.not_lt_zero v)⟩
  | cons plane planes ih =>
      obtain ⟨width, height, image⟩ := plane
      obtain ⟨hsized, hpos⟩ := h _ (List.mem_cons_self)
      obtain ⟨done, hcall, hsize, hdone⟩ := @random_call seed width height image hsized hpos
      obtain ⟨images, N, hcalls, hsizes, hN, hdones⟩ :=
        ih (fun plane hplane => h plane (List.mem_cons_of_mem _ hplane))
          (nextVector^[image.length / 4] seed)
      refine ⟨done :: images, image.length / 4 + N, ?_, ?_, ?_, fun v hv l => ?_⟩
      · unfold randomImages at hcalls ⊢
        unfold seeded
        simp only [hcall, hcalls, Option.bind_eq_bind, Option.bind_some, Option.pure_def,
          ← Function.iterate_add_apply, Nat.add_comm N]
      · rw [List.flatten_cons, List.length_append, hsize, hsizes, Nat.mul_add]
      · have hlength : image.length = u32 (width * height) := hsized.image
        obtain ⟨q, hq⟩ : ∃ q, u32 (width * height) = 4 * q := hsized.quads
        rw [List.map_cons, List.sum_cons, hN]
        show image.length + 4 * N = _
        omega
      · rw [List.flatten_cons]
        refine getElem?_append_vectors hsize l (fun v => nextRandom^[v + 1] (seed.lane l))
          (fun v hv => hdone v hv l) (fun v hv => ?_) hv
        rw [hdones v hv l, lane_iterate, ← Function.iterate_add_apply]
        congr 2
        omega

/-- The images together hold the numbers in their order, and in 65535 vectors of them each number
but zero is there once in every lane. -/
theorem random_noise {planes : List (Nat × Nat × List S16)}
    (h : ∀ plane ∈ planes, Sized plane.1 plane.2.1 ⟨plane.2.2, none⟩ ∧
      0 < u32 (plane.1 * plane.2.1)) (seed : M64) :
    ∃ images seed', randomImages planes seed = some (images, seed') ∧
      images.flatten.length = (planes.map fun plane => plane.2.2.length).sum ∧
      ∀ l : Fin 4, seed'.lane l = nextRandom^[images.flatten.length / 4] (seed.lane l) ∧
        (∀ v, 4 * v + 4 ≤ images.flatten.length →
          images.flatten[4 * v + l]? = some (nextRandom^[v + 1] (seed.lane l))) ∧
        (seed.lane l ≠ 0 → ∀ first, 4 * (first + 65535) ≤ images.flatten.length →
          ∀ number ≠ 0, ∃! v, v < 65535 ∧
            images.flatten[4 * (first + v) + l]? = some number) := by
  obtain ⟨images, N, hrun, hlength, hN, hdone⟩ := random_calls h seed
  refine ⟨images, _, hrun, hlength.trans hN.symm,
    fun l => ⟨?_, fun v hv => hdone v (by omega) l, ?_⟩⟩
  · rw [lane_iterate, hlength, Nat.mul_div_cancel_left _ (by decide)]
  · intro hseed first hfirst number hnumber
    have hvector : ∀ v < 65535, images.flatten[4 * (first + v) + l]? =
        some (nextRandom^[v] (nextRandom^[first + 1] (seed.lane l))) := by
      intro v hv
      rw [hdone (first + v) (by omega) l, ← Function.iterate_add_apply]
      congr 2
      omega
    obtain ⟨v, hv, hnext, hunique⟩ := occurs_once (iterate_ne_zero hseed (first + 1)) hnumber
    refine ⟨v, ⟨hv, (hvector v hv).trans (congrArg some hnext)⟩, ?_⟩
    rintro w ⟨hw, hpixel⟩
    exact hunique w hw (Option.some.inj ((hvector w hw).symm.trans hpixel))

/-- An image of 65535 vectors from the seeds 1, 2, 3 and 4. -/
theorem random_noise_image : ∃ image, (∃ seed', randomImages
      [(1020, 257, List.replicate 262140 0)] ⟨1, 2, 3, 4⟩ = some (image, seed')) ∧
    ∃! v, v < 65535 ∧ image.flatten[4 * (0 + v) + 2]? = some 7 := by
  have hlength : (List.replicate 262140 (0 : S16)).length = 262140 := List.length_replicate
  have harea : u32 (1020 * 257) = 262140 := by decide
  obtain ⟨images, seed', hrun, hsize, hall⟩ := @random_noise
    [(1020, 257, List.replicate 262140 0)] (by
      intro plane hplane
      obtain rfl := List.mem_singleton.mp hplane
      exact ⟨⟨hlength.trans harea.symm, hlength.trans harea.symm, ⟨65535, by rw [harea]⟩⟩,
        by rw [harea]; decide⟩) ⟨1, 2, 3, 4⟩
  rw [List.map_singleton, List.sum_singleton, hlength] at hsize
  exact ⟨images, ⟨seed', hrun⟩, (hall 2).2.2 (by decide) 0 (by rw [hsize]) 7 (by decide)⟩

/-- What one call of `pdp_imageproc_randmix_process` does. -/
theorem randmix_call {seed threshold : M64} {width height : Nat} {im : Images}
    (h : Sized width height im) (hpos : 0 < u32 (width * height)) :
    ∃ image, pdpImageprocRandmixProcess seed threshold width height im =
        some ({ im with image := image }, nextVector^[im.image.length / 4] seed) ∧
      image.length = 4 * (im.image.length / 4) ∧
      ∀ v < im.image.length / 4, ∀ l : Fin 4, ∃ left right, im.image[4 * v + l]? = some left ∧
        im.second[4 * v + l]? = some right ∧ image[4 * v + l]? =
          some (mixed (threshold.lane l) (nextRandom^[v] (seed.lane l)) left right) := by
  have hlength : im.image.length = u32 (width * height) := h.image
  have hsecond : im.second.length = u32 (width * height) := h.second
  obtain ⟨q, hq⟩ := h.quads
  have hlt := u32_lt (width * height)
  have hn : u32 (width * height) / 4 = im.image.length / 4 := by rw [hlength]
  obtain ⟨image, hrun, hsize, -, hdone⟩ :=
    rounds_randmix threshold (im.image.length / 4) 0 im seed (by omega) (by omega)
  refine ⟨image, ?_, by omega, fun v hv l => ?_⟩
  · unfold pdpImageprocRandmixProcess pixelRandmixS16
    rw [hn, loopCount_of_pos (by omega) (by omega)]
    exact hrun
  · rw [← lane_iterate]
    have hv' := hdone v hv l
    rw [Nat.zero_add] at hv'
    exact hv'

theorem randmix_calls {threshold : M64} {pairs : List (Nat × Nat × Images)}
    (h : ∀ pair ∈ pairs, Sized pair.1 pair.2.1 pair.2.2 ∧ 0 < u32 (pair.1 * pair.2.1))
    (seed : M64) :
    ∃ images N, randmixImages threshold pairs seed = some (images, nextVector^[N] seed) ∧
      (images.map Images.image).flatten.length = 4 * N ∧
      (pairs.map fun pair => pair.2.2.image.length).sum = 4 * N ∧
      ∀ v < N, ∀ l : Fin 4, ∃ left right,
        (pairs.map fun pair => pair.2.2.image).flatten[4 * v + l]? = some left ∧
        (pairs.map fun pair => pair.2.2.second).flatten[4 * v + l]? = some right ∧
        (images.map Images.image).flatten[4 * v + l]? =
          some (mixed (threshold.lane l) (nextRandom^[v] (seed.lane l)) left right) := by
  induction pairs generalizing seed with
  | nil => exact ⟨[], 0, rfl, rfl, rfl, fun v hv => absurd hv (Nat.not_lt_zero v)⟩
  | cons pair pairs ih =>
      obtain ⟨width, height, im⟩ := pair
      obtain ⟨hsized, hpos⟩ := h _ (List.mem_cons_self)
      have hlength : im.image.length = u32 (width * height) := hsized.image
      have hsecond : im.second.length = u32 (width * height) := hsized.second
      obtain ⟨q, hq⟩ : ∃ q, u32 (width * height) = 4 * q := hsized.quads
      obtain ⟨image, hcall, hsize, hdone⟩ := @randmix_call seed threshold width height im hsized hpos
      obtain ⟨images, N, hcalls, hsizes, hN, hdones⟩ :=
        ih (fun pair hpair => h pair (List.mem_cons_of_mem _ hpair))
          (nextVector^[im.image.length / 4] seed)
      refine ⟨{ im with image := image } :: images, im.image.length / 4 + N, ?_, ?_, ?_,
        fun v hv l => ?_⟩
      · unfold randmixImages at hcalls ⊢
        unfold seeded
        simp only [hcall, hcalls, Option.bind_eq_bind, Option.bind_some, Option.pure_def,
          ← Function.iterate_add_apply, Nat.add_comm N]
      · rw [List.map_cons, List.flatten_cons, List.length_append, hsizes, Nat.mul_add]
        show image.length + _ = _
        rw [hsize]
      · rw [List.map_cons, List.sum_cons, hN]
        show im.image.length + 4 * N = _
        omega
      · have hl := l.isLt
        rw [List.map_cons, List.map_cons, List.map_cons, List.flatten_cons, List.flatten_cons,
          List.flatten_cons]
        rcases Nat.lt_or_ge v (im.image.length / 4) with hlt | hge
        · obtain ⟨left, right, hleft, hright, hmixed⟩ := hdone v hlt l
          refine ⟨left, right, ?_, ?_, ?_⟩
          · rw [List.getElem?_append_left (show _ < im.image.length by omega), hleft]
          · rw [List.getElem?_append_left (show _ < im.second.length by omega), hright]
          · rw [List.getElem?_append_left (show _ < image.length by omega), hmixed]
        · obtain ⟨left, right, hleft, hright, hmixed⟩ := hdones (v - im.image.length / 4)
            (by omega) l
          have hindex : 4 * v + ↑l - im.image.length = 4 * (v - im.image.length / 4) + l := by omega
          have hback : v - im.image.length / 4 + im.image.length / 4 = v := by omega
          rw [lane_iterate, ← Function.iterate_add_apply, hback] at hmixed
          refine ⟨left, right, ?_, ?_, ?_⟩
          · rw [List.getElem?_append_right (show im.image.length ≤ _ by omega), hindex, hleft]
          · rw [List.getElem?_append_right (show im.second.length ≤ _ by omega), hsecond,
              ← hlength, hindex, hright]
          · rw [List.getElem?_append_right (show image.length ≤ _ by omega), hsize,
              show 4 * (im.image.length / 4) = im.image.length by omega, hindex, hmixed]

/-- How many numbers of a period the threshold stays above or at. -/
theorem card_behind {x : S16} (hx : x ≠ 0#16) (threshold : S16) :
    (((Finset.range 65535).filter fun v =>
      ¬threshold.toInt < (nextRandom^[v] x).toInt).card : Int) =
        threshold.toInt + 32768 + (if threshold.toInt < 0 then 1 else 0) := by
  have hcard : ((Finset.range 65535).filter fun v =>
      ¬threshold.toInt < (nextRandom^[v] x).toInt).card =
        ((Finset.Icc (-32768) threshold.toInt).erase 0).card := by
    refine Finset.card_bij (fun v _ => (nextRandom^[v] x).toInt) ?_ ?_ ?_
    · intro v hv
      have hle := not_lt.mp (Finset.mem_filter.mp hv).2
      refine Finset.mem_erase.mpr ⟨fun hzero => iterate_ne_zero hx v ?_,
        Finset.mem_Icc.mpr ⟨BitVec.le_toInt _, hle⟩⟩
      exact BitVec.eq_of_toInt_eq hzero
    · intro v hv w hw heq
      obtain ⟨k, -, -, hunique⟩ := occurs_once hx (iterate_ne_zero hx w)
      have hv' := Finset.mem_range.mp (Finset.mem_filter.mp hv).1
      have hw' := Finset.mem_range.mp (Finset.mem_filter.mp hw).1
      exact (hunique v hv' (BitVec.eq_of_toInt_eq heq)).trans (hunique w hw' rfl).symm
    · intro b hb
      obtain ⟨hne, hmem⟩ := Finset.mem_erase.mp hb
      obtain ⟨hlow, hhigh⟩ := Finset.mem_Icc.mp hmem
      have hupper : threshold.toInt < 2 ^ (16 - 1) := BitVec.toInt_lt
      have hback : (BitVec.ofInt 16 b).toInt = b := by
        rw [BitVec.toInt_ofInt]
        exact Int.bmod_eq_of_le (by omega) (by omega)
      have hzero : BitVec.ofInt 16 b ≠ 0#16 := by
        intro h
        rw [h] at hback
        exact hne hback.symm
      obtain ⟨k, hk, hnext, -⟩ := occurs_once hx hzero
      refine ⟨k, Finset.mem_filter.mpr ⟨Finset.mem_range.mpr hk, ?_⟩, ?_⟩
      · rw [hnext, hback]
        exact not_lt.mpr hhigh
      · show (nextRandom^[k] x).toInt = b
        rw [hnext, hback]
  have hlower := BitVec.le_toInt threshold
  rw [hcard]
  by_cases hneg : threshold.toInt < 0
  · rw [Finset.erase_eq_of_notMem (by rw [Finset.mem_Icc]; omega), Int.card_Icc, if_pos hneg]
    omega
  · rw [Finset.card_erase_of_mem (by rw [Finset.mem_Icc]; omega), Int.card_Icc, if_neg hneg]
    omega

/-- The images together take their pixels from the one side or the other as the numbers say, and in
65535 vectors the threshold alone decides how many are taken from the second side. -/
theorem randmix_period {threshold : M64} {pairs : List (Nat × Nat × Images)}
    (h : ∀ pair ∈ pairs, Sized pair.1 pair.2.1 pair.2.2 ∧ 0 < u32 (pair.1 * pair.2.1))
    (seed : M64) :
    ∃ images seed', randmixImages threshold pairs seed = some (images, seed') ∧
      (images.map Images.image).flatten.length =
        (pairs.map fun pair => pair.2.2.image.length).sum ∧
      ∀ l : Fin 4, ∃ behind : Nat → Bool,
        (∀ v, 4 * v + 4 ≤ (images.map Images.image).flatten.length →
          (images.map Images.image).flatten[4 * v + l]? =
            if behind v then (pairs.map fun pair => pair.2.2.second).flatten[4 * v + l]?
            else (pairs.map fun pair => pair.2.2.image).flatten[4 * v + l]?) ∧
        (seed.lane l ≠ 0 → ∀ first,
          (((Finset.range 65535).filter fun v => behind (first + v)).card : Int) =
            (threshold.lane l).toInt + 32768 + (if (threshold.lane l).toInt < 0 then 1 else 0)) := by
  obtain ⟨images, N, hrun, hlength, hN, hdone⟩ := @randmix_calls threshold pairs h seed
  refine ⟨images, _, hrun, hlength.trans hN.symm, fun l =>
    ⟨fun v => !decide ((threshold.lane l).toInt < (nextRandom^[v] (seed.lane l)).toInt),
      fun v hv => ?_, fun hseed first => ?_⟩⟩
  · obtain ⟨left, right, hleft, hright, hmixed⟩ := hdone v (by omega) l
    rw [hmixed, hleft, hright]
    unfold mixed
    by_cases hlt : (threshold.lane l).toInt < (nextRandom^[v] (seed.lane l)).toInt
    · simp only [hlt, decide_true, Bool.not_true, if_true, Bool.false_eq_true, if_false]
    · simp only [hlt, decide_false, Bool.not_false, if_true, if_false]
  · have hbehind : ((Finset.range 65535).filter fun v =>
        (!decide ((threshold.lane l).toInt < (nextRandom^[first + v] (seed.lane l)).toInt)) = true) =
          (Finset.range 65535).filter fun v => ¬(threshold.lane l).toInt <
            (nextRandom^[v] (nextRandom^[first] (seed.lane l))).toInt := by
      refine Finset.filter_congr fun v _ => ?_
      rw [← Function.iterate_add_apply, Nat.add_comm v, Bool.not_eq_true', decide_eq_false_iff_not]
    rw [hbehind]
    exact card_behind (iterate_ne_zero hseed first) _

/-- Two images of one vector. -/
theorem randmix_period_vector : ∃ images seed', Mmx.randmixImages ⟨0, 0, 0, 0⟩
    [(4, 1, ⟨[1, 2, 3, 4], some [5, 6, 7, 8]⟩)] ⟨1, 1, 1, 1⟩ = some (images, seed') ∧
      (images.map Images.image).flatten.length = 4 := by
  obtain ⟨images, seed', hrun, hlength, -⟩ := @randmix_period ⟨0, 0, 0, 0⟩
    [(4, 1, ⟨[1, 2, 3, 4], some [5, 6, 7, 8]⟩)] (by
      intro pair hpair
      obtain rfl := List.mem_singleton.mp hpair
      exact ⟨⟨rfl, rfl, ⟨1, rfl⟩⟩, by decide⟩) ⟨1, 1, 1, 1⟩
  exact ⟨images, seed', hrun, hlength⟩

end Mmx

end PureDataPacket
