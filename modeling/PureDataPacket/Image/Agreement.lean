/-
# `PureDataPacket.Image.Agreement` — how far the versions of a routine agree

Each routine puts some function of the two pixels in place of the first one, so
two versions agree on all images as far as their functions agree on two pixels.

The high word of a product has one bit less behind the point than a pixel.  The
assembly shifts the product back, and both register versions double the sum of
a mix; `pdp_imageproc_mul_process` of the intrinsics does neither, and its
images are half as bright.

| | |
| :-- | :-- |
| `Near` | pixels that differ by rounding and saturation only |
| `rounds_pixelStep` | a routine that goes through the images pixel by pixel |
| `rounds_vectorStep` | a routine that goes through the images four pixels at a time |
| `near_mix` | one rounded product against two |
| `agree_processed_iff` | versions agree on images as their functions do on pixels |
| `VersionsAgree` | what is compared |
-/
import PureDataPacket.Image.Imageproc

namespace PureDataPacket

/-! ## Loops -/

theorem rounds_eq {σ : Type} {body : Nat → σ → Option σ} {P : Nat → σ} {n : Nat} :
    ∀ {i : Nat}, (∀ k, i ≤ k → k < i + n → body k (P k) = some (P (k + 1))) →
      rounds body n i (P i) = some (P (i + n)) := by
  induction n with
  | zero =>
      intro i _
      rfl
  | succ n ih =>
      intro i hbody
      have hrest := @ih (i + 1) fun k hi hk => hbody k (by omega) (by omega)
      rw [rounds, hbody i le_rfl (by omega), Option.bind_some, hrest]
      congr 2
      omega

/-- The images when the first `k` pixels are done. -/
def processed (f : S16 → S16 → S16) (im : Images) (k : Nat) : Images :=
  { im with image := im.image.mapIdx fun i a => if i < k then f a (im.second[i]?.getD 0) else a }

section Processed

variable {f : S16 → S16 → S16} {im : Images} {n k : Nat}

@[simp] theorem length_processed : (processed f im k).image.length = im.image.length :=
  List.length_mapIdx

theorem processed_zero : processed f im 0 = im := by
  have himage : (processed f im 0).image = im.image := by
    apply List.ext_getElem?
    intro i
    simp [processed, List.getElem?_mapIdx]
  exact congrArg (fun l => Images.mk l im.image2) himage

theorem getElem?_processed_of_ge {i : Nat} (h : k ≤ i) :
    (processed f im k).image[i]? = im.image[i]? := by
  simp [processed, List.getElem?_mapIdx, Nat.not_lt.mpr h]

/-- The pixels still to be done are read as they were, also where the images are one. -/
theorem second_processed_of_ge {i : Nat} (h : k ≤ i) :
    (processed f im k).second[i]? = im.second[i]? := by
  cases him : im.image2 with
  | none =>
      have hsame : im.second = im.image := by simp [Images.second, him]
      have hsame' : (processed f im k).second = (processed f im k).image := by
        simp [Images.second, processed, him]
      rw [hsame, hsame', getElem?_processed_of_ge h]
  | some other => simp [Images.second, processed, him]

theorem set_processed {a b : S16} (ha : im.image[k]? = some a) (hb : im.second[k]? = some b) :
    (processed f im k).image.set k (f a b) = (processed f im (k + 1)).image := by
  apply List.ext_getElem?
  intro i
  rw [List.getElem?_set]
  rcases eq_or_ne k i with rfl | hne
  · obtain ⟨hlt, rfl⟩ := List.getElem?_eq_some_iff.mp ha
    simp [processed, hb, hlt]
  · have hiff : i < k + 1 ↔ i < k := by omega
    rw [if_neg hne]
    simp only [processed, List.getElem?_mapIdx, hiff]

theorem rounds_pixelStep (hn : n ≤ im.image.length) (hsecond : n ≤ im.second.length) :
    rounds (pixelStep f) n 0 im = some (processed f im n) := by
  have hloop : rounds (pixelStep f) n 0 (processed f im 0) = some (processed f im (0 + n)) := by
    apply rounds_eq
    intro k _ hk
    have ha := List.getElem?_eq_getElem (show k < im.image.length by omega)
    have hb := List.getElem?_eq_getElem (show k < im.second.length by omega)
    have hset := @set_processed f im k _ _ ha hb
    unfold pixelStep
    rw [getElem?_processed_of_ge le_rfl, second_processed_of_ge le_rfl, ha, hb]
    simp only [Option.bind_eq_bind, Option.bind_some, hset]
    rfl
  rwa [processed_zero, Nat.zero_add] at hloop

theorem load_eq {l : List S16} {v : Nat} (h : 4 * v + 4 ≤ l.length) :
    ∃ m, M64.load l v = some m ∧ l[4 * v]? = some m.s0 ∧ l[4 * v + 1]? = some m.s1 ∧
      l[4 * v + 2]? = some m.s2 ∧ l[4 * v + 3]? = some m.s3 := by
  have h0 := List.getElem?_eq_getElem (show 4 * v < l.length by omega)
  have h1 := List.getElem?_eq_getElem (show 4 * v + 1 < l.length by omega)
  have h2 := List.getElem?_eq_getElem (show 4 * v + 2 < l.length by omega)
  have h3 := List.getElem?_eq_getElem (show 4 * v + 3 < l.length by omega)
  refine ⟨⟨_, _, _, _⟩, ?_, h0, h1, h2, h3⟩
  unfold M64.load
  rw [h0, h1, h2, h3]
  rfl

theorem load_congr {l l' : List S16} {v : Nat} (h : ∀ i, 4 * v ≤ i → l[i]? = l'[i]?) :
    M64.load l v = M64.load l' v := by
  unfold M64.load
  rw [h _ le_rfl, h _ (by omega), h _ (by omega), h _ (by omega)]

/-- A round that does the same to four pixels at once. -/
def vectorStep (f : S16 → S16 → S16) (v : Nat) (im : Images) : Option Images := do
  let left ← M64.load im.image v
  let right ← M64.load im.second v
  return { im with image := M64.store im.image v (M64.map₂ f left right) }

theorem rounds_vectorStep (hn : 4 * n ≤ im.image.length) (hsecond : 4 * n ≤ im.second.length) :
    rounds (vectorStep f) n 0 im = some (processed f im (4 * n)) := by
  have hloop : rounds (vectorStep f) n 0 (processed f im (4 * 0)) =
      some (processed f im (4 * (0 + n))) := by
    refine @rounds_eq _ _ (fun k => processed f im (4 * k)) n 0 ?_
    intro v _ hv
    obtain ⟨a, hload, ha0, ha1, ha2, ha3⟩ := @load_eq im.image v (by omega)
    obtain ⟨b, hload', hb0, hb1, hb2, hb3⟩ := @load_eq im.second v (by omega)
    have hleft : M64.load (processed f im (4 * v)).image v = some a := by
      rw [← hload]
      exact load_congr fun i hi => getElem?_processed_of_ge hi
    have hright : M64.load (processed f im (4 * v)).second v = some b := by
      rw [← hload']
      exact load_congr fun i hi => second_processed_of_ge hi
    have hstore : M64.store (processed f im (4 * v)).image v (M64.map₂ f a b) =
        (processed f im (4 * (v + 1))).image := by
      unfold M64.store M64.map₂
      rw [set_processed ha0 hb0, set_processed ha1 hb1, set_processed ha2 hb2,
        set_processed ha3 hb3]
      rfl
    unfold vectorStep
    rw [hleft, hright]
    simp only [Option.bind_eq_bind, Option.bind_some, hstore]
    rfl
  rwa [processed_zero, Nat.zero_add] at hloop

end Processed

/-! ## Two pixels -/

/-- Pixels that differ by rounding and saturation only. -/
def Near (a b : S16) : Prop := (a.toInt - b.toInt).natAbs ≤ 4

instance (a b : S16) : Decidable (Near a b) := inferInstanceAs (Decidable (_ ≤ _))

theorem near_comm {a b : S16} : Near a b ↔ Near b a := by
  unfold Near
  omega

/-- A pixel of the mix with gains in registers, the way the intrinsics double it. -/
def doubleSum (gl gr a b : S16) : S16 :=
  let sum := addsPixel (mulhiPixel gl a) (mulhiPixel gr b)
  addsPixel sum sum

def sumDoubles (gl gr a b : S16) : S16 :=
  let mm0 := mulhiPixel a gl
  let mm1 := mulhiPixel b gr
  addsPixel (addsPixel mm0 mm0) (addsPixel mm1 mm1)

section Pixels

variable {a b gl gr : S16} {n k m : Int}

theorem pixel_bounds (a : S16) : -2 ^ 15 ≤ a.toInt ∧ a.toInt < 2 ^ 15 :=
  ⟨BitVec.le_toInt a, BitVec.toInt_lt⟩

theorem toInt_toS16 (hlo : -2 ^ 15 ≤ n) (hhi : n < 2 ^ 15) : (toS16 n).toInt = n := by
  unfold toS16
  rw [BitVec.toInt_ofInt]
  apply Int.bmod_eq_of_le <;> omega

theorem toInt_addsPixel :
    (addsPixel a b).toInt = max (-0x8000) (min 0x7fff (a.toInt + b.toInt)) := by
  unfold addsPixel
  apply toInt_toS16 <;> omega

/-- A product of a pixel and a number no further from zero than a pixel can be. -/
theorem product_bounds (a : S16) (hlo : -2 ^ 15 ≤ n) (hhi : n ≤ 2 ^ 15) :
    -2 ^ 30 ≤ a.toInt * n ∧ a.toInt * n ≤ 2 ^ 30 := by
  obtain ⟨halo, hahi⟩ := pixel_bounds a
  have ha : |a.toInt| ≤ 2 ^ 15 := abs_le.mpr ⟨halo, hahi.le⟩
  have hn : |n| ≤ 2 ^ 15 := abs_le.mpr ⟨hlo, hhi⟩
  have hmul : |a.toInt * n| ≤ 2 ^ 15 * 2 ^ 15 := by
    rw [abs_mul]
    exact mul_le_mul ha hn (abs_nonneg n) (by decide)
  obtain ⟨h1, h2⟩ := abs_le.mp hmul
  exact ⟨by omega, by omega⟩

theorem toInt_mulhiPixel : (mulhiPixel a b).toInt = a.toInt * b.toInt / 2 ^ 16 := by
  obtain ⟨hlo, hhi⟩ := pixel_bounds b
  obtain ⟨h1, h2⟩ := product_bounds a hlo hhi.le
  unfold mulhiPixel
  apply toInt_toS16 <;> omega

theorem mulhiPixel_comm : mulhiPixel a b = mulhiPixel b a := by
  unfold mulhiPixel
  rw [mul_comm]

theorem toInt_shiftLeft_one : (a <<< 1).toInt = (2 * a.toInt).bmod (2 ^ 16) := by
  rw [BitVec.shiftLeft_eq_mul_twoPow, BitVec.toInt_mul, mul_comm]
  rfl

theorem clamp16_bounds (n : Int) : -0x7fff ≤ Portable.CLAMP16 n ∧ Portable.CLAMP16 n ≤ 0x7fff := by
  unfold Portable.CLAMP16
  split
  · omega
  · split <;> omega

theorem near_add : Near (toS16 (Portable.CLAMP16 (a.toInt + b.toInt))) (addsPixel a b) := by
  have hclamp := clamp16_bounds (a.toInt + b.toInt)
  unfold Near
  rw [toInt_addsPixel, toInt_toS16 (by omega) (by omega)]
  unfold Portable.CLAMP16
  split
  · omega
  · split <;> omega

theorem near_mul_shift : Near (toS16 (a.toInt * b.toInt / 2 ^ 15)) (mulhiPixel a b <<< 1) := by
  obtain ⟨hlo, hhi⟩ := pixel_bounds b
  obtain ⟨h1, h2⟩ := product_bounds a hlo hhi.le
  unfold Near
  rw [toInt_shiftLeft_one, toInt_mulhiPixel]
  unfold toS16
  rw [BitVec.toInt_ofInt]
  generalize a.toInt * b.toInt = p at h1 h2
  rcases h2.eq_or_lt with rfl | h2
  · -- `-32768 * -32768` overflows in both.
    decide
  · rw [Int.bmod_eq_of_le (by omega) (by omega), Int.bmod_eq_of_le (by omega) (by omega)]
    omega

/-- Both of them are near the high word only when the product is small. -/
theorem near_mul_iff : (Near (toS16 (a.toInt * b.toInt / 2 ^ 15)) (mulhiPixel a b) ∧
      Near (mulhiPixel a b) (mulhiPixel a b <<< 1)) ↔
    -2 ^ 18 ≤ a.toInt * b.toInt ∧ a.toInt * b.toInt < 9 * 2 ^ 15 := by
  obtain ⟨hlo, hhi⟩ := pixel_bounds b
  obtain ⟨h1, h2⟩ := product_bounds a hlo hhi.le
  unfold Near
  rw [toInt_shiftLeft_one, toInt_mulhiPixel]
  unfold toS16
  rw [BitVec.toInt_ofInt]
  generalize a.toInt * b.toInt = p at h1 h2
  rcases h2.eq_or_lt with rfl | h2
  · decide
  · rw [Int.bmod_eq_of_le (by omega) (by omega), Int.bmod_eq_of_le (by omega) (by omega)]
    omega

/-- Where the gain is no less than `-0x7fff`, the high word of a product can be doubled. -/
theorem mulhiPixel_double (a : S16) (hg : -0x7fff ≤ gl.toInt) :
    -0x4000 ≤ (mulhiPixel gl a).toInt ∧ (mulhiPixel gl a).toInt ≤ 0x3fff := by
  obtain ⟨hlo, hhi⟩ := pixel_bounds gl
  obtain ⟨halo, hahi⟩ := pixel_bounds a
  obtain ⟨h1, h2⟩ := product_bounds gl halo hahi.le
  rw [toInt_mulhiPixel]
  have hne : gl.toInt * a.toInt ≠ 2 ^ 30 := by
    intro heq
    nlinarith
  omega

theorem toInt_doubleSum (hl : -0x7fff ≤ gl.toInt) (hr : -0x7fff ≤ gr.toInt) :
    (doubleSum gl gr a b).toInt = max (-0x8000)
      (min 0x7fff (2 * (gl.toInt * a.toInt / 2 ^ 16 + gr.toInt * b.toInt / 2 ^ 16))) := by
  have hleft := mulhiPixel_double a hl
  have hright := mulhiPixel_double b hr
  unfold doubleSum
  rw [toInt_addsPixel, toInt_addsPixel, ← toInt_mulhiPixel, ← toInt_mulhiPixel]
  omega

/-- Doubling before the sum and after it is the same. -/
theorem sumDoubles_eq (hl : -0x7fff ≤ gl.toInt) (hr : -0x7fff ≤ gr.toInt) :
    sumDoubles gl gr a b = doubleSum gl gr a b := by
  have hleft := mulhiPixel_double a hl
  have hright := mulhiPixel_double b hr
  apply BitVec.eq_of_toInt_eq
  rw [toInt_doubleSum hl hr, ← toInt_mulhiPixel, ← toInt_mulhiPixel]
  unfold sumDoubles
  rw [toInt_addsPixel, toInt_addsPixel, toInt_addsPixel, mulhiPixel_comm, @mulhiPixel_comm b gr]
  omega

/-- Rounding one product and rounding two differ by less than three; the lower bound of the
plain routine is one above that of the registers. -/
theorem near_mix (hk : -0x7fff ≤ k ∧ k ≤ 0x7fff) (hm : -0x7fff ≤ m ∧ m ≤ 0x7fff) :
    Near (Portable.mixPixel ⟨k, m⟩ a b) (doubleSum (toS16 k) (toS16 m) a b) := by
  have hgl : (toS16 k).toInt = k := toInt_toS16 (by omega) (by omega)
  have hgr : (toS16 m).toInt = m := toInt_toS16 (by omega) (by omega)
  unfold Near Portable.mixPixel
  dsimp only
  have hn := clamp16_bounds ((a.toInt * k + b.toInt * m) / 2 ^ 15)
  rw [toInt_doubleSum (by omega) (by omega), hgl, hgr, toInt_toS16 (by omega) (by omega),
    mul_comm k, mul_comm m]
  generalize a.toInt * k = x
  generalize b.toInt * m = y
  unfold Portable.CLAMP16
  split
  · omega
  · split <;> omega

end Pixels

/-! ## Gains -/

/-- Every gain is one of the numbers that have a negative. -/
theorem float2fixed_mem (gain : ℚ) : -0x7fff ≤ float2fixed gain ∧ float2fixed gain ≤ 0x7fff := by
  have hclip : ∀ f : ℚ, -1 ≤ f → f ≤ 1 →
      -0x7fff ≤ truncate (toFloat (f * 0x7fff)) ∧ truncate (toFloat (f * 0x7fff)) ≤ 0x7fff := by
    intro f hlo hhi
    have hlo' : ((-0x7fff : Int) : ℚ) ≤ f * 0x7fff := by
      push_cast
      linarith
    have hhi' : f * 0x7fff ≤ ((0x7fff : Int) : ℚ) := by
      push_cast
      linarith
    have habs : |f * 0x7fff| < 2 ^ 24 := by
      rw [abs_lt]
      constructor <;> linarith
    obtain ⟨h1, h2⟩ := toFloat_mem habs hlo' hhi'
    exact truncate_mem h1 h2
  unfold float2fixed
  dsimp only
  split
  · next hbig =>
      have hnot : ¬ (1 : ℚ) < -1 := by norm_num
      rw [if_neg hnot]
      exact hclip 1 (by norm_num) le_rfl
  · next hbig =>
      split
      · exact hclip (-1) le_rfl (by norm_num)
      · next hsmall => exact hclip gain (not_lt.mp hsmall) (not_lt.mp hbig)

theorem toInt_setvec (gain : ℚ) : (setvec gain).s0.toInt = float2fixed gain := by
  obtain ⟨hlo, hhi⟩ := float2fixed_mem gain
  exact toInt_toS16 (by omega) (by omega)

theorem setvec_eq_zero_iff (gain : ℚ) : (setvec gain).s0 = 0 ↔ float2fixed gain = 0 := by
  rw [← toInt_setvec]
  constructor
  · intro h
    rw [h]
    rfl
  · intro h
    exact BitVec.eq_of_toInt_eq h

/-! ## Two results -/

/-- Two results that differ by at most 4 at each pixel. -/
def ResultsAgree (r s : Option Images) : Prop :=
  ∃ im im', r = some im ∧ s = some im' ∧ List.Forall₂ Near im.image im'.image

/-- Pixel `a` of the first image meets pixel `b` of the second. -/
def Meets (im : Images) (i : Nat) (a b : S16) : Prop :=
  im.image[i]? = some a ∧ im.second[i]? = some b

/-- Images of `width * height` pixels, a multiple of four. -/
structure Sized (width height : Nat) (im : Images) : Prop where
  image : im.image.length = u32 (width * height)
  second : im.second.length = u32 (width * height)
  quads : 4 ∣ u32 (width * height)

section Results

variable {f g : S16 → S16 → S16} {im im' : Images} {n : Nat} {l l' : List S16}

theorem agree_some : ResultsAgree (some im) (some im') ↔ List.Forall₂ Near im.image im'.image := by
  constructor
  · rintro ⟨_, _, h, h', hnear⟩
    cases h
    cases h'
    exact hnear
  · intro h
    exact ⟨im, im', rfl, rfl, h⟩

theorem agree_comm {r s : Option Images} : ResultsAgree r s ↔ ResultsAgree s r := by
  have hflip : ∀ {r s : Option Images}, ResultsAgree r s → ResultsAgree s r := by
    rintro _ _ ⟨im, im', rfl, rfl, h⟩
    refine ⟨im', im, rfl, rfl, h.flip.imp ?_⟩
    intro a b hab
    exact near_comm.mp hab
  exact ⟨hflip, hflip⟩

theorem not_agree_none {r : Option Images} : ¬ ResultsAgree r none := by
  rintro ⟨_, _, _, h, _⟩
  cases h

theorem getElem?_processed {i : Nat} {a b : S16} (hi : i < n) (h : Meets im i a b) :
    (processed f im n).image[i]? = some (f a b) := by
  simp [processed, List.getElem?_mapIdx, h.1, h.2, hi]

theorem forall₂_near_iff (hlen : l.length = l'.length) :
    List.Forall₂ Near l l' ↔ ∀ (i : Nat) (a b : S16), l[i]? = some a → l'[i]? = some b → Near a b := by
  rw [List.forall₂_iff_get]
  constructor
  · rintro ⟨_, h⟩ i a b ha hb
    obtain ⟨hi, rfl⟩ := List.getElem?_eq_some_iff.mp ha
    obtain ⟨hi', rfl⟩ := List.getElem?_eq_some_iff.mp hb
    exact h i hi hi'
  · intro h
    refine ⟨hlen, fun i hi hi' => ?_⟩
    exact h i _ _ (List.getElem?_eq_getElem hi) (List.getElem?_eq_getElem hi')

/-- Versions agree on images as far as their functions do on the pixels that meet. -/
theorem agree_processed_iff (himage : im.image.length = n) (hsecond : im.second.length = n) :
    ResultsAgree (some (processed f im n)) (some (processed g im n)) ↔
      ∀ i a b, Meets im i a b → Near (f a b) (g a b) := by
  rw [agree_some, forall₂_near_iff (by rw [length_processed, length_processed])]
  constructor
  · intro h i a b hab
    have hi : i < n := himage ▸ (List.getElem?_eq_some_iff.mp hab.1).1
    exact h i _ _ (getElem?_processed hi hab) (getElem?_processed hi hab)
  · intro h i x y hx hy
    have hi : i < n := by
      rw [← himage, ← @length_processed f im n]
      exact (List.getElem?_eq_some_iff.mp hx).1
    have hab : Meets im i _ _ := ⟨List.getElem?_eq_getElem (by omega),
      List.getElem?_eq_getElem (by omega)⟩
    rw [getElem?_processed hi hab] at hx hy
    cases hx
    cases hy
    exact h i _ _ hab

end Results

/-! ## The three versions -/

section Versions

variable {f : S16 → S16 → S16} {width height : Nat} {im : Images}

theorem vectorStep_eq (v : Nat) (im : Images) :
    (do
      let right ← M64.load im.second v
      let left ← M64.load im.image v
      return { im with image := M64.store im.image v (M64.map₂ f left right) }) =
    vectorStep f v im := by
  unfold vectorStep
  cases M64.load im.second v <;> cases M64.load im.image v <;> rfl

theorem pixels_eq (h : Sized width height im) :
    rounds (pixelStep f) (u32 (width * height)) 0 im =
      some (processed f im (u32 (width * height))) :=
  rounds_pixelStep h.image.ge h.second.ge

theorem vectors_eq (h : Sized width height im) :
    rounds (vectorStep f) (u32 (width * height) / 4) 0 im =
      some (processed f im (u32 (width * height))) := by
  obtain ⟨q, hq⟩ := h.quads
  have hquot : u32 (width * height) / 4 = q := by omega
  have himage := h.image
  have hsecond := h.second
  rw [hquot, rounds_vectorStep (by omega) (by omega), hq]

theorem loopCount_of_pos {ecx : Nat} (hpos : 0 < ecx) (hlt : ecx < 2 ^ 32) :
    Mmx.loopCount ecx = ecx := by
  unfold Mmx.loopCount
  omega

theorem loop_eq (h : Sized width height im) (hpos : 0 < u32 (width * height)) :
    rounds (vectorStep f) (Mmx.loopCount (u32 (width * height) / 4)) 0 im =
      some (processed f im (u32 (width * height))) := by
  obtain ⟨q, hq⟩ := h.quads
  have hlt := u32_lt (width * height)
  rw [loopCount_of_pos (by omega) (by omega), vectors_eq h]

/-- A loop that tests its counter last does not stop in front of an empty image. -/
theorem loop_none (h : Sized width height im) (hzero : u32 (width * height) = 0) (ecx : Nat) :
    rounds (vectorStep f) (Mmx.loopCount ecx) 0 im = none := by
  have himage : im.image = [] := List.eq_nil_of_length_eq_zero (h.image.trans hzero)
  have hbody : vectorStep f 0 im = none := by
    unfold vectorStep
    rw [himage]
    rfl
  unfold Mmx.loopCount
  rw [rounds, hbody]
  rfl

/-- Each result is near the other two. -/
structure AllAgree (portable gccMmx mmx : Option Images) : Prop where
  gcc : ResultsAgree portable gccMmx
  asm : ResultsAgree portable mmx
  registers : ResultsAgree gccMmx mmx

/-- The results of the three versions on the same images, the mixers being set to the same
gains. -/
structure VersionsAgree (width height : Nat) (left right : ℚ) (x : Portable.Mix) (y z : MixVec)
    (im : Images) : Prop where
  add : AllAgree (Portable.pdpImageprocAddProcess width height im)
    (GccMmx.pdpImageprocAddProcess width height im) (Mmx.pdpImageprocAddProcess width height im)
  mul : AllAgree (Portable.pdpImageprocMulProcess width height im)
    (GccMmx.pdpImageprocMulProcess width height im) (Mmx.pdpImageprocMulProcess width height im)
  mix : AllAgree
    (Portable.pdpImageprocMixProcess (Portable.pdpImageprocMixSetrightgain
      (Portable.pdpImageprocMixSetleftgain x left) right) width height im)
    (GccMmx.pdpImageprocMixProcess (GccMmx.pdpImageprocMixSetrightgain
      (GccMmx.pdpImageprocMixSetleftgain y left) right) width height im)
    (Mmx.pdpImageprocMixProcess (Mmx.pdpImageprocMixSetrightgain
      (Mmx.pdpImageprocMixSetleftgain z left) right) width height im)

theorem near_refl (a : S16) : Near a a := by
  unfold Near
  omega

theorem asmAdd_eq : Mmx.pdpImageprocAddProcess width height im =
    rounds (vectorStep addsPixel) (Mmx.loopCount (u32 (width * height) / 4)) 0 im := by
  have hbody : vectorStep addsPixel = fun v im => do
      let mm1 ← M64.load im.second v
      let mm0 ← M64.load im.image v
      return { im with image := M64.store im.image v (paddsw mm0 mm1) } := by
    funext v im
    exact (vectorStep_eq v im).symm
  rw [hbody]
  rfl

theorem asmMul_eq : Mmx.pdpImageprocMulProcess width height im =
    rounds (vectorStep fun a b => mulhiPixel a b <<< 1)
      (Mmx.loopCount (u32 (width * height) / 4)) 0 im := by
  have hbody : (vectorStep fun a b => mulhiPixel a b <<< 1) = fun v im => do
      let mm1 ← M64.load im.second v
      let mm0 ← M64.load im.image v
      return { im with image := M64.store im.image v (psllw 1 (pmulhw mm0 mm1)) } := by
    funext v im
    exact (vectorStep_eq v im).symm
  rw [hbody]
  rfl

theorem map₂_sumDoubles (left right : ℚ) (m n : M64) :
    M64.map₂ (sumDoubles (setvec left).s0 (setvec right).s0) m n =
      paddsw (paddsw (pmulhw m (setvec left)) (pmulhw m (setvec left)))
        (paddsw (pmulhw n (setvec right)) (pmulhw n (setvec right))) := by
  simp only [pmulhw, paddsw, M64.map₂, sumDoubles, setvec]

theorem asmMix_eq (left right : ℚ) (n : Nat) :
    Mmx.pixelMixS16 n (setvec left) (setvec right) im =
      rounds (vectorStep (sumDoubles (setvec left).s0 (setvec right).s0)) (Mmx.loopCount n) 0 im := by
  have hbody : vectorStep (sumDoubles (setvec left).s0 (setvec right).s0) = fun v im => do
      let mm1 ← M64.load im.second v
      let mm0 ← M64.load im.image v
      let mm0 := pmulhw mm0 (setvec left)
      let mm0 := paddsw mm0 mm0
      let mm1 := pmulhw mm1 (setvec right)
      let mm1 := paddsw mm1 mm1
      return { im with image := M64.store im.image v (paddsw mm0 mm1) } := by
    funext v im
    rw [← vectorStep_eq]
    simp only [map₂_sumDoubles]
  rw [hbody]
  rfl

theorem add_agree (h : Sized width height im) (hpos : 0 < u32 (width * height)) :
    AllAgree (Portable.pdpImageprocAddProcess width height im)
      (GccMmx.pdpImageprocAddProcess width height im)
      (Mmx.pdpImageprocAddProcess width height im) := by
  have hportable : Portable.pdpImageprocAddProcess width height im = some (processed _ im _) :=
    pixels_eq h
  have hgcc : GccMmx.pdpImageprocAddProcess width height im = some (processed addsPixel im _) :=
    vectors_eq h
  have hasm : Mmx.pdpImageprocAddProcess width height im = some (processed addsPixel im _) :=
    asmAdd_eq.trans (loop_eq h hpos)
  have hnear : ResultsAgree (Portable.pdpImageprocAddProcess width height im)
      (GccMmx.pdpImageprocAddProcess width height im) := by
    rw [hportable, hgcc, agree_processed_iff h.image h.second]
    exact fun _ _ _ _ => near_add
  refine ⟨hnear, ?_, ?_⟩
  · rw [hasm, ← hgcc]
    exact hnear
  · rw [hasm, hgcc, agree_processed_iff h.image h.second]
    exact fun _ _ _ _ => near_refl _

theorem mul_agree_iff (h : Sized width height im) (hpos : 0 < u32 (width * height)) :
    AllAgree (Portable.pdpImageprocMulProcess width height im)
      (GccMmx.pdpImageprocMulProcess width height im)
      (Mmx.pdpImageprocMulProcess width height im) ↔
    ∀ i a b, Meets im i a b → -2 ^ 18 ≤ a.toInt * b.toInt ∧ a.toInt * b.toInt < 9 * 2 ^ 15 := by
  have hportable : Portable.pdpImageprocMulProcess width height im = some (processed _ im _) :=
    pixels_eq h
  have hgcc : GccMmx.pdpImageprocMulProcess width height im = some (processed mulhiPixel im _) :=
    vectors_eq h
  have hasm : Mmx.pdpImageprocMulProcess width height im = some (processed _ im _) :=
    asmMul_eq.trans (loop_eq h hpos)
  rw [hportable, hgcc, hasm]
  constructor
  · rintro ⟨hgcc, _, hregisters⟩ i a b hab
    rw [agree_processed_iff h.image h.second] at hgcc hregisters
    exact near_mul_iff.mp ⟨hgcc i a b hab, hregisters i a b hab⟩
  · intro hsmall
    refine ⟨?_, ?_, ?_⟩ <;> rw [agree_processed_iff h.image h.second] <;> intro i a b hab
    · exact (near_mul_iff.mpr (hsmall i a b hab)).1
    · exact near_mul_shift
    · exact (near_mul_iff.mpr (hsmall i a b hab)).2

/-- The number of pixels that `memcpy` copies. -/
theorem copied_le (n : Nat) : u32 (n * 2) / 2 ≤ u32 n := by
  unfold u32
  omega

/-- Without a left gain the second image is copied, by the intrinsics only as far as the number
of bytes is a machine word. -/
theorem copyPixels_agree_iff (h : Sized width height im) :
    ResultsAgree (some (processed (fun _ b => b) im (u32 (width * height))))
        (if im.image2.isSome then GccMmx.copyPixels width height im else some im) ↔
      ∀ i a b, Meets im i a b → u32 (width * height * 2) / 2 ≤ i → Near a b := by
  have himage := h.image
  have hsecond := h.second
  have hcopied := copied_le (width * height)
  split
  · next hother =>
      unfold GccMmx.copyPixels
      dsimp only
      rw [if_pos ⟨by omega, by omega⟩, agree_some, forall₂_near_iff (by simp; omega)]
      constructor
      · intro hnear i a b hab hi
        have hlt : i < u32 (width * height) := himage ▸ (List.getElem?_eq_some_iff.mp hab.1).1
        refine near_comm.mp (hnear i b a (getElem?_processed hlt hab) ?_)
        rw [List.getElem?_append_right (by simp; omega), List.getElem?_drop,
          List.length_take_of_le (by omega), Nat.add_sub_cancel' hi]
        exact hab.1
      · intro hnear i x y hx hy
        have hlt : i < u32 (width * height) := by
          rw [← himage, ← length_processed]
          exact (List.getElem?_eq_some_iff.mp hx).1
        have hab : Meets im i _ _ := ⟨List.getElem?_eq_getElem (by omega),
          List.getElem?_eq_getElem (by omega)⟩
        rw [getElem?_processed hlt hab] at hx
        cases hx
        rcases Nat.lt_or_ge i (u32 (width * height * 2) / 2) with hi | hi
        · rw [List.getElem?_append_left (by simp; omega), List.getElem?_take_of_lt hi, hab.2] at hy
          cases hy
          exact near_refl _
        · rw [List.getElem?_append_right (by simp; omega), List.getElem?_drop,
            List.length_take_of_le (by omega), Nat.add_sub_cancel' hi, hab.1] at hy
          cases hy
          exact near_comm.mp (hnear i _ _ hab hi)
  · next hsame =>
      -- The packet is mixed with itself, and both sides say nothing.
      have hmeets : ∀ {i a b}, Meets im i a b → a = b := by
        rintro i a b ⟨ha, hb⟩
        have heq : im.second = im.image := by
          unfold Images.second
          cases him : im.image2 with
          | none => rfl
          | some other => exact absurd (by rw [him]; rfl) hsame
        rw [heq, ha] at hb
        exact Option.some.inj hb
      refine iff_of_true ?_ ?_
      · rw [agree_some, forall₂_near_iff length_processed]
        intro i x y hx hy
        have hlt : i < u32 (width * height) := himage ▸ (List.getElem?_eq_some_iff.mp hy).1
        have hab : Meets im i y _ := ⟨hy, List.getElem?_eq_getElem (by omega)⟩
        rw [getElem?_processed hlt hab] at hx
        cases hx
        rw [← hmeets hab]
        exact near_refl _
      · intro i a b hab _
        rw [hmeets hab]
        exact near_refl _

theorem gccMix_of_zero {left right : ℚ} (hvec : (setvec left).s0 = 0) :
    GccMmx.pdpImageprocMixProcess ⟨setvec left, setvec right⟩ width height im =
      if im.image2.isSome then GccMmx.copyPixels width height im else some im := by
  unfold GccMmx.pdpImageprocMixProcess
  rw [if_pos hvec]

theorem map₂_doubleSum (left right : ℚ) (m n : M64) :
    M64.map₂ (doubleSum (setvec left).s0 (setvec right).s0) m n =
      paddsw (paddsw (pmulhw (setvec left) m) (pmulhw (setvec right) n))
        (paddsw (pmulhw (setvec left) m) (pmulhw (setvec right) n)) := by
  simp only [pmulhw, paddsw, M64.map₂, doubleSum, setvec]

theorem gccMix_eq {left right : ℚ} (h : Sized width height im) (hvec : (setvec left).s0 ≠ 0) :
    GccMmx.pdpImageprocMixProcess ⟨setvec left, setvec right⟩ width height im =
      some (processed (doubleSum (setvec left).s0 (setvec right).s0) im
        (u32 (width * height))) := by
  have hbody : vectorStep (doubleSum (setvec left).s0 (setvec right).s0) = fun v im => do
      let left := pmulhw (setvec left) (← M64.load im.image v)
      let right := pmulhw (setvec right) (← M64.load im.second v)
      let sum := paddsw left right
      let sum2 := paddsw sum sum
      return { im with image := M64.store im.image v sum2 } := by
    funext v im
    simp only [vectorStep, map₂_doubleSum]
  unfold GccMmx.pdpImageprocMixProcess
  rw [if_neg hvec, ← vectors_eq h, hbody]

/-- Mixing agrees, up to the copy of a large image. -/
theorem mix_agree_iff (h : Sized width height im) (hpos : 0 < u32 (width * height))
    (left right : ℚ) (x : Portable.Mix) (y z : MixVec) :
    AllAgree
      (Portable.pdpImageprocMixProcess (Portable.pdpImageprocMixSetrightgain
        (Portable.pdpImageprocMixSetleftgain x left) right) width height im)
      (GccMmx.pdpImageprocMixProcess (GccMmx.pdpImageprocMixSetrightgain
        (GccMmx.pdpImageprocMixSetleftgain y left) right) width height im)
      (Mmx.pdpImageprocMixProcess (Mmx.pdpImageprocMixSetrightgain
        (Mmx.pdpImageprocMixSetleftgain z left) right) width height im) ↔
    (float2fixed left = 0 →
      ∀ i a b, Meets im i a b → u32 (width * height * 2) / 2 ≤ i → Near a b) := by
  unfold Portable.pdpImageprocMixProcess Mmx.pdpImageprocMixProcess
    Portable.pdpImageprocMixSetrightgain Portable.pdpImageprocMixSetleftgain
    GccMmx.pdpImageprocMixSetrightgain GccMmx.pdpImageprocMixSetleftgain
    Mmx.pdpImageprocMixSetrightgain Mmx.pdpImageprocMixSetleftgain
  dsimp only
  rcases eq_or_ne (float2fixed left) 0 with hzero | hzero
  · have hvec := (setvec_eq_zero_iff left).mpr hzero
    rw [if_pos hzero, gccMix_of_zero hvec, if_pos hvec, pixels_eq h]
    constructor
    · intro hagree _
      exact (copyPixels_agree_iff h).mp hagree.gcc
    · intro hcopy
      have hgcc := (copyPixels_agree_iff h).mpr (hcopy hzero)
      refine ⟨hgcc, ?_, agree_comm.mp hgcc⟩
      rw [agree_processed_iff h.image h.second]
      exact fun _ _ _ _ => near_refl _
  · have hvec : (setvec left).s0 ≠ 0 := fun h => hzero ((setvec_eq_zero_iff left).mp h)
    rw [if_neg hzero, gccMix_eq h hvec, if_neg hvec, pixels_eq h, asmMix_eq, loop_eq h hpos]
    have hsame : ∀ a b, sumDoubles (setvec left).s0 (setvec right).s0 a b =
        doubleSum (setvec left).s0 (setvec right).s0 a b := fun a b =>
      sumDoubles_eq (by rw [toInt_setvec]; exact (float2fixed_mem left).1)
        (by rw [toInt_setvec]; exact (float2fixed_mem right).1)
    have hmix : ∀ a b, Near (Portable.mixPixel ⟨float2fixed left, float2fixed right⟩ a b)
        (doubleSum (setvec left).s0 (setvec right).s0 a b) := fun a b =>
      near_mix (float2fixed_mem left) (float2fixed_mem right)
    refine iff_of_true ?_ (fun h => absurd h hzero)
    refine ⟨?_, ?_, ?_⟩
    · rw [agree_processed_iff h.image h.second]
      exact fun _ a b _ => hmix a b
    · rw [agree_processed_iff h.image h.second]
      intro _ a b _
      rw [hsame]
      exact hmix a b
    · rw [agree_processed_iff h.image h.second]
      intro _ a b _
      rw [hsame]
      exact near_refl _

/-- The versions agree on an input exactly when there is a pixel, the products of the pixels are
small, and what lies behind the last byte that is copied need not be. -/
theorem versionsAgree_iff (h : Sized width height im) (left right : ℚ) (x : Portable.Mix)
    (y z : MixVec) :
    VersionsAgree width height left right x y z im ↔
      0 < u32 (width * height) ∧
      (∀ i a b, Meets im i a b →
        -2 ^ 18 ≤ a.toInt * b.toInt ∧ a.toInt * b.toInt < 9 * 2 ^ 15) ∧
      (float2fixed left = 0 →
        ∀ i a b, Meets im i a b → u32 (width * height * 2) / 2 ≤ i → Near a b) := by
  constructor
  · intro hagree
    have hpos : 0 < u32 (width * height) := by
      rw [Nat.pos_iff_ne_zero]
      intro hzero
      have hadd := hagree.add.asm
      rw [asmAdd_eq, loop_none h hzero] at hadd
      exact not_agree_none hadd
    exact ⟨hpos, (mul_agree_iff h hpos).mp hagree.mul,
      (mix_agree_iff h hpos left right x y z).mp hagree.mix⟩
  · rintro ⟨hpos, hmul, hmix⟩
    exact ⟨add_agree h hpos, (mul_agree_iff h hpos).mpr hmul,
      (mix_agree_iff h hpos left right x y z).mpr hmix⟩

end Versions

def darkImages : Images := ⟨List.replicate 4 (toS16 0x100), some (List.replicate 4 (toS16 0x200))⟩

theorem versionsAgree_dark :
    VersionsAgree 2 2 (1 / 2) (1 / 2) ⟨0, 0⟩ ⟨setvec 0, setvec 0⟩ ⟨setvec 0, setvec 0⟩
      darkImages := by
  refine (versionsAgree_iff ⟨by decide, by decide, by decide⟩ _ _ _ _ _).mpr
    ⟨by decide, ?_, ?_⟩
  · rintro i a b ⟨ha, hb⟩
    have ha' : a = toS16 0x100 := List.eq_of_mem_replicate (List.mem_of_getElem? ha)
    have hb' : b = toS16 0x200 := List.eq_of_mem_replicate (List.mem_of_getElem? hb)
    rw [ha', hb']
    decide
  · rintro _ i a b ⟨ha, _⟩ hi
    have hlt : i < 4 := (List.getElem?_eq_some_iff.mp ha).1
    have hcopied : u32 (2 * 2 * 2) / 2 = 4 := by decide
    omega

def greyImages : Images := ⟨List.replicate 4 (toS16 0x4000), some (List.replicate 4 (toS16 0x4000))⟩

/-- Their product is `0x2000`, and `0x1000` from the intrinsics. -/
theorem versions_differ : Sized 2 2 greyImages ∧
    ¬ VersionsAgree 2 2 1 1 ⟨0, 0⟩ ⟨setvec 0, setvec 0⟩ ⟨setvec 0, setvec 0⟩ greyImages := by
  have hsized : Sized 2 2 greyImages := ⟨by decide, by decide, by decide⟩
  refine ⟨hsized, fun hagree => ?_⟩
  have hsmall := (mul_agree_iff hsized (by decide)).mp hagree.mul 0 (toS16 0x4000) (toS16 0x4000)
    ⟨rfl, rfl⟩
  exact absurd hsmall (by decide)

end PureDataPacket
