/-
# `PureDataPacket.Image.Chebyshev` — passes of a polynomial over an image

`pdp_imageproc_cheby_process` puts each pixel through a polynomial, several times.  The
`gccMmx` version stores the pixels after each pass.  The `portable` one keeps a pixel in an
`s32` from pass to pass, and clamps what it has after the last one, or without any: so
more passes are not the same as passes after passes.

Memory is a function of the index of a pixel.  An overflow of an `s32` wraps.

| | |
| :-- | :-- |
| `commute_rows` | the rows of an image do not look at each other |
| `Composes` | passes after passes give the same image as all of them at once |
| `Unclamped` | the clamp has nothing to do after `n` passes |
| `chebyPixel_add` | clamping does not show where it has nothing to do |
| `chebyPass_stuck_mem` | what the clamp does to values at the end of the range |
-/
import PureDataPacket.Image.Biquad
import PureDataPacket.Image.Packing
import PureDataPacket.Lib.Locality
import PureDataPacket.Lib.Sweep

namespace PureDataPacket

/-! ## Plain C -/

namespace Portable

/-- `t_cheby`. -/
structure Cheby where
  order : Nat
  nbpasses : Nat
  coefs : Nat → Int

/-- The variables of a pass. -/
structure ChebyState where
  acc : Int
  T1 : Int
  T2 : Int

def chebyRound (c inp : Int) (s : ChebyState) : ChebyState :=
  let t := toInt32 (toInt32 (s.T1 * inp) / 2 ^ 14 - s.T2)
  ⟨toInt32 (s.acc + toInt32 (c * t) / 2 ^ 15), t, s.T1⟩

/-- One pass, from `acc` to `acc`. -/
def chebyPass (order : Nat) (coefs : Nat → Int) (acc : Int) : Int :=
  let inp := acc
  ((List.range (order - 1)).foldl (fun s k => chebyRound (coefs (k + 2)) inp s)
    ⟨toInt32 (coefs 0 + toInt32 (inp * coefs 1) / 2 ^ 15), inp, 0x7fff⟩).acc

/-- What is stored for a pixel. -/
def chebyPixel (z : Cheby) (a : S16) : S16 :=
  toS16 (CLAMP16 ((chebyPass z.order z.coefs)^[z.nbpasses] a.toInt))

/-- `pdp_imageproc_cheby_process`. -/
def pdpImageprocChebyProcess (z : Cheby) (width height : Nat) (image : Pixels) : Pixels :=
  (List.range (u32 (height * width))).foldl
    (fun image (j : Nat) => Function.update image j (chebyPixel z (image j))) image

end Portable

/-! ## Intrinsics -/

namespace GccMmx

/-- `_mm_subs_pi16`. -/
def psubsw : M64 → M64 → M64 :=
  M64.map₂ fun a b => toS16 (max (-0x8000) (min 0x7fff (a.toInt - b.toInt)))

/-- `t_cheby`: a register for each coefficient. -/
structure Cheby where
  order : Nat
  nbpasses : Nat
  coefs : Nat → M64

/-- The registers of a pass. -/
structure ChebyState where
  acc : M64
  T1 : M64
  T2 : M64

/-- One round of the recurrence of `pixel_cheby_s16_3plus`. -/
def chebyRound (an x : M64) (s : ChebyState) : ChebyState :=
  let xT1Div2 := pmulhw x s.T1
  let T2Div4 := psraw 2 s.T2
  let TDiv4 := psubsw xT1Div2 T2Div4
  let TDiv2 := paddsw TDiv4 TDiv4
  let T := paddsw TDiv2 TDiv2
  let aTDiv2 := pmulhw an T
  ⟨paddsw s.acc aTDiv2, T, s.T1⟩

/-- What `pixel_cheby_s16_3plus` makes of a vector. -/
def chebyVector (orderPlusOne : Nat) (a : Nat → M64) (x : M64) : M64 :=
  let a0 := a 0
  let FFFF := pcmpeqw a0 a0
  let one := psrlw 1 FFFF
  let a0Div2 := psraw 1 a0
  let a1xDiv2 := pmulhw (a 1) x
  let acc := ((List.range (orderPlusOne - 2)).foldl (fun s n => chebyRound (a (n + 2)) x s)
    ⟨paddsw a1xDiv2 a0Div2, x, one⟩).acc
  let acc2 := paddsw acc acc
  let acc4 := paddsw acc2 acc2
  paddsw acc4 acc4

/-- `pixel_cheby_s16_3plus`. -/
def pixelChebyS163plus (image : Int) (nbVec orderPlusOne : Nat) (coefs : Nat → M64)
    (m : Pixels) : Pixels :=
  (List.range nbVec).foldl (fun m (v : Nat) =>
    storeVec m image v (chebyVector orderPlusOne coefs (loadVec m image v))) m

/-- `pdp_imageproc_cheby_process`.  The counter goes over the rows of an image whose pixels an
`unsigned int` can count. -/
def pdpImageprocChebyProcess (z : Cheby) (width height : Nat) (image : Pixels) : Pixels :=
  (counter 0 (u32 (height * width)) width).foldl (fun m j =>
    (pixelChebyS163plus j (width / 4) (z.order + 1) z.coefs)^[z.nbpasses] m) image

end GccMmx

/-! ## Passes over registers -/

namespace GccMmx

/-- The pixels of a row that are in whole vectors. -/
def rowPixels (j : Int) (nbVec : Nat) : Set Int := { a | j ≤ a ∧ a < j + 4 * nbVec }

theorem local_vector (f : M64 → M64) (j : Int) {nbVec v : Nat} (hv : v < nbVec) :
    Local (rowPixels j nbVec) fun m => storeVec m j v (f (loadVec m j v)) := by
  have hmem : ∀ l : Int, 0 ≤ l → l < 4 → j + 4 * v + l ∈ rowPixels j nbVec := by
    intro l h0 h4
    constructor <;> omega
  have hfirst := hmem 0 (by decide) (by decide)
  rw [Int.add_zero] at hfirst
  constructor
  · intro m a ha
    refine storeVec_other m _ fun l hl => ha ?_
    have := l.isLt
    rw [hl]
    exact hmem l (by omega) (by omega)
  · intro m m' hm a ha
    have hload : loadVec m j v = loadVec m' j v := by
      unfold loadVec
      rw [hm _ hfirst, hm _ (hmem 1 (by decide) (by decide)),
        hm _ (hmem 2 (by decide) (by decide)), hm _ (hmem 3 (by decide) (by decide))]
    show storeVec m j v (f (loadVec m j v)) a = storeVec m' j v (f (loadVec m' j v)) a
    rw [hload]
    unfold storeVec
    rw [hm a ha]

theorem local_row (j : Int) (nbVec orderPlusOne : Nat) (coefs : Nat → M64) :
    Local (rowPixels j nbVec) (pixelChebyS163plus j nbVec orderPlusOne coefs) :=
  Local.foldl fun _ hv => local_vector _ j (List.mem_range.mp hv)

theorem rows_apart {j j' : Int} {nbVec : Nat}
    (hapart : j + 4 * nbVec ≤ j' ∨ j' + 4 * nbVec ≤ j) :
    ∀ a ∈ rowPixels j nbVec, a ∉ rowPixels j' nbVec := by
  rintro a ⟨hlo, hhi⟩ ⟨hlo', hhi'⟩
  omega

theorem commute_rows {j j' : Int} {width : Nat} {stop : Int} (orderPlusOne : Nat)
    (coefs : Nat → M64) (hj : j ∈ counter 0 stop width) (hj' : j' ∈ counter 0 stop width) :
    Function.Commute (pixelChebyS163plus j (width / 4) orderPlusOne coefs)
      (pixelChebyS163plus j' (width / 4) orderPlusOne coefs) := by
  obtain ⟨i, -, rfl⟩ := List.mem_map.mp hj
  obtain ⟨i', -, rfl⟩ := List.mem_map.mp hj'
  have hrow : ∀ {i i' : Nat}, i < i' →
      (0 : Int) + width * i + 4 * (width / 4 : Nat) ≤ 0 + width * i' := by
    intro i i' hlt
    have hmul := Nat.mul_le_mul_left width (show i + 1 ≤ i' from hlt)
    rw [Nat.mul_add, Nat.mul_one] at hmul
    zify at hmul
    omega
  rcases Nat.lt_trichotomy i i' with hlt | rfl | hlt
  · exact (local_row _ _ _ _).commute (local_row _ _ _ _) (rows_apart (Or.inl (hrow hlt)))
  · exact Function.Commute.refl _
  · exact (local_row _ _ _ _).commute (local_row _ _ _ _) (rows_apart (Or.inr (hrow hlt)))

theorem chebyProcess_eq (order nbpasses : Nat) (coefs : Nat → M64) (width height : Nat)
    (m : Pixels) :
    pdpImageprocChebyProcess ⟨order, nbpasses, coefs⟩ width height m =
      (fun m => (counter 0 (u32 (height * width)) width).foldl (fun m j =>
        pixelChebyS163plus j (width / 4) (order + 1) coefs m) m)^[nbpasses] m :=
  foldl_iterate (fun _ hj _ hj' => commute_rows (order + 1) coefs hj hj') nbpasses m

theorem chebyProcess_add (order n k : Nat) (coefs : Nat → M64) (width height : Nat) (m : Pixels) :
    pdpImageprocChebyProcess ⟨order, n + k, coefs⟩ width height m =
      pdpImageprocChebyProcess ⟨order, k, coefs⟩ width height
        (pdpImageprocChebyProcess ⟨order, n, coefs⟩ width height m) := by
  rw [chebyProcess_eq, chebyProcess_eq, chebyProcess_eq, Nat.add_comm n k,
    Function.iterate_add_apply]

end GccMmx

/-! ## Passes over a pixel -/

namespace Portable

section Pixel

variable {order : Nat} {coefs : Nat → Int} {z : Cheby} {width height : Nat}

theorem foldl_pixels (f : S16 → S16) (n : Nat) (m : Pixels) (a : Int) :
    (List.range n).foldl (fun (m : Pixels) (j : Nat) => Function.update m j (f (m j))) m a =
      if 0 ≤ a ∧ a < n then f (m a) else m a := by
  induction n with
  | zero => rw [if_neg (by omega), List.range_zero, List.foldl_nil]
  | succ n ih =>
      rw [List.range_succ, List.foldl_append, List.foldl_cons, List.foldl_nil]
      rcases eq_or_ne a n with rfl | hne
      · have hlast : (List.range n).foldl
            (fun (m : Pixels) (j : Nat) => Function.update m j (f (m j))) m n = m n :=
          ih.trans (if_neg (by omega))
        rw [Function.update_self, if_pos (by omega), hlast]
      · rw [Function.update_of_ne hne, ih]
        split <;> split <;> first | rfl | omega

theorem chebyProcess_apply (z : Cheby) (width height : Nat) (m : Pixels) (a : Int) :
    pdpImageprocChebyProcess z width height m a =
      if 0 ≤ a ∧ a < u32 (height * width) then chebyPixel z (m a) else m a :=
  foldl_pixels (chebyPixel z) _ m a

/-- Passes after passes give the same image as all of them at once. -/
def Composes (order : Nat) (coefs : Nat → Int) (width height n k : Nat) (m : Pixels) : Prop :=
  pdpImageprocChebyProcess ⟨order, n + k, coefs⟩ width height m =
    pdpImageprocChebyProcess ⟨order, k, coefs⟩ width height
      (pdpImageprocChebyProcess ⟨order, n, coefs⟩ width height m)

/-- The clamp has nothing to do after `n` passes. -/
def Unclamped (order : Nat) (coefs : Nat → Int) (width height n : Nat) (m : Pixels) : Prop :=
  ∀ j : Nat, j < u32 (height * width) →
    -0x7fff ≤ (chebyPass order coefs)^[n] (m j).toInt ∧
      (chebyPass order coefs)^[n] (m j).toInt ≤ 0x7fff

theorem composes_iff {n k : Nat} {m : Pixels} : Composes order coefs width height n k m ↔
    ∀ j : Nat, j < u32 (height * width) → chebyPixel ⟨order, n + k, coefs⟩ (m j) =
      chebyPixel ⟨order, k, coefs⟩ (chebyPixel ⟨order, n, coefs⟩ (m j)) := by
  constructor
  · intro h j hj
    have hin : (0 : Int) ≤ j ∧ (j : Int) < u32 (height * width) := by omega
    have hpixel := congrFun h (j : Int)
    simp only [chebyProcess_apply, if_pos hin] at hpixel
    exact hpixel
  · intro h
    unfold Composes
    funext a
    simp only [chebyProcess_apply]
    split
    · next hin =>
        obtain ⟨j, rfl⟩ := Int.eq_ofNat_of_zero_le hin.1
        exact h j (by omega)
    · rfl

theorem CLAMP16_mem (v : Int) : -0x7fff ≤ CLAMP16 v ∧ CLAMP16 v ≤ 0x7fff := by
  unfold CLAMP16
  omega

theorem toInt_toS16_CLAMP16 (v : Int) : (toS16 (CLAMP16 v)).toInt = CLAMP16 v := by
  obtain ⟨hlo, hhi⟩ := CLAMP16_mem v
  unfold toS16
  rw [BitVec.toInt_ofInt]
  exact Int.bmod_eq_of_le (by omega) (by omega)

theorem toInt_chebyPixel (n : Nat) (a : S16) : (chebyPixel ⟨order, n, coefs⟩ a).toInt =
    CLAMP16 ((chebyPass order coefs)^[n] a.toInt) :=
  toInt_toS16_CLAMP16 _

theorem chebyPixel_add {n k : Nat} {a : S16}
    (hin : CLAMP16 ((chebyPass order coefs)^[n] a.toInt) = (chebyPass order coefs)^[n] a.toInt) :
    chebyPixel ⟨order, n + k, coefs⟩ a =
      chebyPixel ⟨order, k, coefs⟩ (chebyPixel ⟨order, n, coefs⟩ a) := by
  unfold chebyPixel
  rw [toInt_toS16_CLAMP16, hin, Nat.add_comm n k, Function.iterate_add_apply]

theorem chebyPixel_zero (n : Nat) (a : S16) :
    chebyPixel ⟨order, n, coefs⟩ a =
      chebyPixel ⟨order, 0, coefs⟩ (chebyPixel ⟨order, n, coefs⟩ a) := by
  have hid : ∀ v, CLAMP16 (CLAMP16 v) = CLAMP16 v := by
    intro v
    unfold CLAMP16
    omega
  unfold chebyPixel
  rw [toInt_toS16_CLAMP16, Function.iterate_zero, id_eq, hid]

end Pixel

/-! ## A polynomial that is stuck at the smallest pixel -/

section Stuck

variable {order : Nat}

/-- A little more than the identity: `-0x8000` stays where it is, and greater values grow. -/
def stuck : Nat → Int
  | 0 => 2
  | 1 => 0x8000
  | 2 => -1
  | _ => 0

theorem foldl_chebyRound_zero (inp : Int) (l : List Nat) {s : ChebyState} (hs : IsInt s.acc) :
    (l.foldl (fun s k => chebyRound (stuck (k + 3)) inp s) s).acc = s.acc := by
  induction l generalizing s with
  | nil => rfl
  | cons k l ih =>
      have hround : (chebyRound (stuck (k + 3)) inp s).acc = s.acc := by
        show toInt32 (s.acc + toInt32 (0 * _) / 2 ^ 15) = s.acc
        rw [Int.zero_mul, show toInt32 0 = 0 from rfl, Int.zero_ediv, Int.add_zero]
        exact toInt32_of_isInt hs
      rw [List.foldl_cons, ih (by rw [hround]; exact hs), hround]

theorem chebyPass_stuck (horder : 2 ≤ order) {x : Int} (hlo : -0x8000 ≤ x) (hhi : x ≤ 0x8000) :
    chebyPass order stuck x = x + 2 + -(x * x / 2 ^ 14 - 0x7fff) / 2 ^ 15 := by
  have hsquare : 0 ≤ x * x ∧ x * x ≤ 0x8000 * 0x8000 := by
    constructor <;> nlinarith
  obtain ⟨hsq, hsq'⟩ := hsquare
  obtain ⟨q, hq⟩ : ∃ q, order - 1 = q + 1 := ⟨order - 2, by omega⟩
  obtain ⟨t, ht⟩ : ∃ t, t = x * x / 2 ^ 14 - 0x7fff := ⟨_, rfl⟩
  have hlinear : toInt32 (2 + toInt32 (x * 0x8000) / 2 ^ 15) = x + 2 := by
    rw [toInt32_of_isInt (n := x * 0x8000) ⟨by omega, by omega⟩,
      toInt32_of_isInt ⟨by omega, by omega⟩]
    omega
  have hterm : toInt32 (toInt32 (x * x) / 2 ^ 14 - 0x7fff) = t := by
    rw [toInt32_of_isInt (n := x * x) ⟨by omega, by omega⟩,
      toInt32_of_isInt ⟨by omega, by omega⟩, ht]
  have hround : (chebyRound (stuck 2) x ⟨x + 2, x, 0x7fff⟩).acc = x + 2 + -t / 2 ^ 15 := by
    show toInt32 (x + 2 + toInt32 (-1 * toInt32 (toInt32 (x * x) / 2 ^ 14 - 0x7fff)) / 2 ^ 15) = _
    rw [hterm, Int.neg_one_mul, toInt32_of_isInt (n := -t) ⟨by omega, by omega⟩,
      toInt32_of_isInt ⟨by omega, by omega⟩]
  have hfold : chebyPass order stuck x =
      ((List.range q).foldl (fun s k => chebyRound (stuck (k + 3)) x s)
        (chebyRound (stuck 2) x ⟨x + 2, x, 0x7fff⟩)).acc := by
    unfold chebyPass
    dsimp only
    rw [hq, List.range_succ_eq_map, List.foldl_cons, List.foldl_map]
    show (List.foldl _ (chebyRound (stuck 2) x
      ⟨toInt32 (2 + toInt32 (x * 0x8000) / 2 ^ 15), x, 0x7fff⟩) _).acc = _
    rw [hlinear]
  rw [hfold, foldl_chebyRound_zero x _ (by rw [hround]; exact ⟨by omega, by omega⟩), hround, ht]

/-- The values above the smallest two stay there, and the smallest but one joins them. -/
theorem chebyPass_stuck_mem (horder : 2 ≤ order) {x : Int} (hlo : -0x7fff ≤ x)
    (hhi : x ≤ 0x8000) : -0x7fff < chebyPass order stuck x ∧ chebyPass order stuck x ≤ 0x8000 := by
  have hsquare : 0 ≤ x * x ∧ x * x ≤ 0x8000 * 0x8000 := by
    constructor <;> nlinarith
  rw [chebyPass_stuck horder (by omega) hhi]
  -- The last term is -2 at most at the ends, where it is computed.
  have hcases : x = -0x7fff ∨ x = 0x7fff ∨ x = 0x8000 ∨ -0x7fff < x ∧ x < 0x7fff := by omega
  rcases hcases with rfl | rfl | rfl | ⟨hlo, hhi⟩
  · decide
  · decide
  · decide
  · omega

theorem not_composes_pixel (horder : 2 ≤ order) (n : Nat) {k : Nat} (hk : 0 < k) :
    chebyPixel ⟨order, n + k, stuck⟩ 0x8000 ≠
      chebyPixel ⟨order, k, stuck⟩ (chebyPixel ⟨order, n, stuck⟩ 0x8000) := by
  have hblack : (0x8000 : S16).toInt = -0x8000 := by decide
  have hstay : ∀ i, (chebyPass order stuck)^[i] (-0x8000) = -0x8000 := fun i =>
    Function.iterate_fixed ((chebyPass_stuck horder (by decide) (by decide)).trans (by decide)) i
  have hclamped : CLAMP16 (-0x8000) = -0x7fff := by decide
  have hpixel : ∀ i, chebyPixel ⟨order, i, stuck⟩ 0x8000 = toS16 (CLAMP16 (-0x8000)) := by
    intro i
    unfold chebyPixel
    rw [hblack, hstay]
  have hgrown : ∀ i, -0x7fff < (chebyPass order stuck)^[i + 1] (-0x7fff) ∧
      (chebyPass order stuck)^[i + 1] (-0x7fff) ≤ 0x8000 := by
    intro i
    induction i with
    | zero => exact chebyPass_stuck_mem horder (by decide) (by decide)
    | succ i ih =>
        rw [Function.iterate_succ_apply']
        exact chebyPass_stuck_mem horder (by omega) ih.2
  obtain ⟨i, rfl⟩ : ∃ i, k = i + 1 := ⟨k - 1, by omega⟩
  intro h
  have hvalue := congrArg BitVec.toInt h
  rw [hpixel, hpixel, toInt_toS16_CLAMP16, toInt_chebyPixel, toInt_toS16_CLAMP16,
    hclamped] at hvalue
  have hlo := (hgrown i).1
  unfold CLAMP16 at hvalue
  omega

end Stuck

end Portable

/-- What holds of all coefficients and images: only when there is nothing to do after the first
passes do they never meet the clamp. -/
theorem composes_all_iff {order : Nat} (horder : 2 ≤ order) (width height n k : Nat) :
    (∀ (coefs : Nat → Int) (m : Pixels), Portable.Composes order coefs width height n k m) ↔
      k = 0 ∨ u32 (height * width) = 0 := by
  constructor
  · intro h
    by_contra hnot
    rw [not_or] at hnot
    have hpixel := Portable.composes_iff.mp (h Portable.stuck fun _ => 0x8000) 0 (by omega)
    exact Portable.not_composes_pixel horder n (by omega) hpixel
  · rintro (rfl | hzero) coefs m
    · exact Portable.composes_iff.mpr fun j _ => Portable.chebyPixel_zero n (m j)
    · exact Portable.composes_iff.mpr fun j hj => absurd hj (by omega)

/-! ## Both versions -/

/-- The intrinsics compose.  The other version composes on an image that the first passes keep in
the clamped range, and without any passes after them. -/
theorem cheby_composes (order width height n k : Nat) (coefs : Nat → Int) (m : Pixels)
    (h : k = 0 ∨ Portable.Unclamped order coefs width height n m) :
    (∀ (coefs : Nat → M64) (m : Pixels),
      GccMmx.pdpImageprocChebyProcess ⟨order, n + k, coefs⟩ width height m =
        GccMmx.pdpImageprocChebyProcess ⟨order, k, coefs⟩ width height
          (GccMmx.pdpImageprocChebyProcess ⟨order, n, coefs⟩ width height m)) ∧
    Portable.Composes order coefs width height n k m := by
  refine ⟨fun coefs m => GccMmx.chebyProcess_add order n k coefs width height m, ?_⟩
  rcases h with rfl | hin
  · exact Portable.composes_iff.mpr fun j _ => Portable.chebyPixel_zero n (m j)
  · refine Portable.composes_iff.mpr fun j hj => Portable.chebyPixel_add ?_
    obtain ⟨hlo, hhi⟩ := hin j hj
    unfold Portable.CLAMP16
    omega

/-- The coefficients of a new filter, and a ramp. -/
theorem cheby_composes_ramp :
    (∀ (coefs : Nat → M64) (m : Pixels),
      GccMmx.pdpImageprocChebyProcess ⟨2, 1 + 1, coefs⟩ 2 2 m =
        GccMmx.pdpImageprocChebyProcess ⟨2, 1, coefs⟩ 2 2
          (GccMmx.pdpImageprocChebyProcess ⟨2, 1, coefs⟩ 2 2 m)) ∧
    Portable.Composes 2 (fun k => if k = 1 then 0x7fff else 0) 2 2 1 1
      fun j => BitVec.ofInt 16 (1000 * j) :=
  cheby_composes 2 2 2 1 1 _ _ (Or.inr (by unfold Portable.Unclamped; decide))

/-- Black stays black in two passes, and does not in one pass after another. -/
theorem not_cheby_composes :
    Portable.pdpImageprocChebyProcess ⟨2, 1 + 1, Portable.stuck⟩ 2 2 (fun _ => 0x8000) 0 =
        toS16 (-0x7fff) ∧
      Portable.pdpImageprocChebyProcess ⟨2, 1, Portable.stuck⟩ 2 2
        (Portable.pdpImageprocChebyProcess ⟨2, 1, Portable.stuck⟩ 2 2 fun _ => 0x8000) 0 =
          toS16 (-0x7ffe) ∧
      ¬ Portable.Composes 2 Portable.stuck 2 2 1 1 fun _ => 0x8000 := by
  refine ⟨by decide, by decide, fun h => ?_⟩
  exact absurd (congrFun h 0) (by decide)

end PureDataPacket
