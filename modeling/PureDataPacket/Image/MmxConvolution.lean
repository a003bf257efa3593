/-
# `PureDataPacket.Image.MmxConvolution` — the convolution of lines, four pixels at a time

`pixel_conv_hor_s16.s` and `pixel_conv_ver_s16.s`.  Both go along a line of vectors of four pixels
and keep the old values of three of them in registers: a row, or a column that is four pixels
wide.  The loop leaves out the last two vectors, and does not test its counter before the first
round.

A vector that is not one of the line cannot be read nor written.

| | |
| :-- | :-- |
| `HorRight` | every pixel of a row of `n` vectors has become the sum for it and its neighbours |
| `VerRight` | the same for the four columns of a strip of `n` rows |
| `convRounds_eq_none` | a line of one or two vectors: the first round reads a third one |
| `horRight_iff` | a row is right if it has three vectors or more, and only then |
| `verRight_iff` | a strip is right if it has three rows or more, and only then |
-/
import PureDataPacket.Image.Biquad
import PureDataPacket.Image.Agreement
import PureDataPacket.Image.Packing

namespace PureDataPacket

/-! ## Registers -/

namespace M64

def pixel (x : M64) : Nat → S16
  | 0 => x.s0
  | 1 => x.s1
  | 2 => x.s2
  | _ => x.s3

end M64

/-- `psllq $16`. -/
def psllq16 (x : M64) : M64 := ⟨0, x.s0, x.s1, x.s2⟩

/-- `psllq $48`. -/
def psllq48 (x : M64) : M64 := ⟨0, 0, 0, x.s0⟩

/-- `psrlq $16`. -/
def psrlq16 (x : M64) : M64 := ⟨x.s1, x.s2, x.s3, 0⟩

/-- `psrlq $48`. -/
def psrlq48 (x : M64) : M64 := ⟨x.s3, 0, 0, 0⟩

/-! ## Lines -/

/-- A line of `count` vectors, `stride` pixels from one to the next. -/
structure VectorLine where
  first : Int
  stride : Int
  count : Nat

namespace VectorLine

/-- Where vector `v` is. -/
def address (line : VectorLine) (v : Nat) : Int := line.first + line.stride * v

def vectorAt (m : Pixels) (a : Int) : M64 := ⟨m a, m (a + 1), m (a + 2), m (a + 3)⟩

/-- The image with another vector at a pixel. -/
def withVector (m : Pixels) (a : Int) (x : M64) : Pixels := fun q =>
  if q = a then x.s0
  else if q = a + 1 then x.s1
  else if q = a + 2 then x.s2
  else if q = a + 3 then x.s3
  else m q

/-- `movq` from vector `v`. -/
def load (line : VectorLine) (m : Pixels) (v : Nat) : Option M64 :=
  if v < line.count then some (vectorAt m (line.address v)) else none

/-- `movq` to vector `v`. -/
def store (line : VectorLine) (m : Pixels) (v : Nat) (x : M64) : Option Pixels :=
  if v < line.count then some (withVector m (line.address v) x) else none

end VectorLine

namespace Mmx

open VectorLine

/-- `min1`, `zero`, `plus1` and `border` of a `t_conv`. -/
structure ConvVec where
  min1 : M64
  zero : M64
  plus1 : M64
  border : M64

/-- `conv_hor_4_pixels`. -/
def convHor4Pixels (d : ConvVec) (mm0 mm1 mm2 : M64) : M64 :=
  let mm0 := psrlq48 mm0
  let mm4 := psllq16 mm1
  let mm0 := por mm0 mm4
  let mm0 := pmulhw mm0 d.min1
  let mm0 := psllw 1 mm0
  let mm4 := pmulhw mm1 d.zero
  let mm4 := psllw 1 mm4
  let mm0 := paddsw mm0 mm4
  let mm3 := psllq48 mm2
  let mm4 := psrlq16 mm1
  let mm3 := por mm3 mm4
  let mm3 := pmulhw mm3 d.plus1
  let mm3 := psllw 1 mm3
  paddsw mm0 mm3

/-- `conv_ver_4_pixels`. -/
def convVer4Pixels (d : ConvVec) (mm0 mm1 mm2 : M64) : M64 :=
  let mm0 := pmulhw mm0 d.min1
  let mm0 := psllw 1 mm0
  let mm4 := pmulhw mm1 d.zero
  let mm4 := psllw 1 mm4
  let mm0 := paddsw mm0 mm4
  let mm3 := pmulhw mm2 d.plus1
  let mm3 := psllw 1 mm3
  paddsw mm0 mm3

/-- The image and the registers. -/
structure ConvRegs where
  image : Pixels
  mm0 : M64
  mm1 : M64
  mm2 : M64

/-- A round of `conv_line_loop`, at vector `v`. -/
def convLineLoop (kernel : M64 → M64 → M64 → M64) (line : VectorLine) (v : Nat) (s : ConvRegs) :
    Option ConvRegs := do
  let image ← line.store s.image v (kernel s.mm0 s.mm1 s.mm2)
  let mm2 ← line.load image (v + 2)
  return ⟨image, s.mm1, s.mm2, mm2⟩

/-- What both routines do, with `n` rounds of the loop. -/
def convRounds (kernel : M64 → M64 → M64 → M64) (border : M64) (line : VectorLine) (n : Nat)
    (image : Pixels) : Option Pixels := do
  let mm1 ← line.load image 0
  let mm2 ← line.load image 1
  let s ← rounds (convLineLoop kernel line) n 0 ⟨image, border, mm1, mm2⟩
  let image ← line.store s.image n (kernel s.mm0 s.mm1 s.mm2)
  line.store image (n + 1) (kernel s.mm1 s.mm2 border)

/-- The counter is decremented twice before the loop. -/
def convLine (kernel : M64 → M64 → M64 → M64) (border : M64) (line : VectorLine)
    (image : Pixels) : Option Pixels :=
  convRounds kernel border line (loopCount (u32 (line.count + (2 ^ 32 - 2)))) image

/-- `pixel_conv_hor_s16`. -/
def pixelConvHorS16 (pixelArray : Int) (nb4pixelVectors : Nat) (d : ConvVec) (image : Pixels) :
    Option Pixels :=
  convLine (convHor4Pixels d) d.border ⟨pixelArray, 4, nb4pixelVectors⟩ image

/-- `pixel_conv_ver_s16`. -/
def pixelConvVerS16 (pixelArray : Int) (nb4pixelVectors rowsize : Nat) (d : ConvVec)
    (image : Pixels) : Option Pixels :=
  convLine (convVer4Pixels d) d.border ⟨pixelArray, rowsize, nb4pixelVectors⟩ image

/-! ## What they are meant to make -/

/-- The high word of a product, doubled. -/
def doubled (a b : S16) : S16 := mulhiPixel a b <<< 1

/-- The saturating sum of three products, for pixel `j` of a vector. -/
def convPixel (d : ConvVec) (j : Nat) (a b c : S16) : S16 :=
  addsPixel (addsPixel (doubled a (d.min1.pixel j)) (doubled b (d.zero.pixel j)))
    (doubled c (d.plus1.pixel j))

/-- Every pixel of a row of `n` vectors has become the sum for it and its neighbours. -/
def HorRight (first : Int) (n : Nat) (d : ConvVec) (m : Pixels) : Prop :=
  ∃ m', pixelConvHorS16 first n d m = some m' ∧
    (∀ i < 4 * n, m' (first + i) = convPixel d (i % 4)
      (if i = 0 then d.border.s3 else m (first + i - 1)) (m (first + i))
      (if i + 1 = 4 * n then d.border.s0 else m (first + i + 1))) ∧
    ∀ q, q < first ∨ first + 4 * n ≤ q → m' q = m q

/-- The same for the four columns of a strip of `n` rows. -/
def VerRight (first : Int) (n rowsize : Nat) (d : ConvVec) (m : Pixels) : Prop :=
  ∃ m', pixelConvVerS16 first n rowsize d m = some m' ∧
    (∀ v < n, ∀ j : Nat, j < 4 → m' (first + rowsize * v + j) = convPixel d j
      (if v = 0 then d.border.pixel j else m (first + rowsize * v + j - rowsize))
      (m (first + rowsize * v + j))
      (if v + 1 = n then d.border.pixel j else m (first + rowsize * v + j + rowsize))) ∧
    ∀ q, (∀ v < n, ∀ j : Nat, j < 4 → q ≠ first + rowsize * v + j) → m' q = m q

/-! ## A line -/

section Line

variable {kernel : M64 → M64 → M64 → M64} {border : M64} {line : VectorLine} {m : Pixels}
  {n v k j : Nat}

theorem pixel_vectorAt (m : Pixels) (a : Int) (hj : j < 4) :
    (vectorAt m a).pixel j = m (a + j) := by
  rcases (by omega : j = 0 ∨ j = 1 ∨ j = 2 ∨ j = 3) with rfl | rfl | rfl | rfl
  · exact congrArg m (Int.add_zero a).symm
  · rfl
  · rfl
  · rfl

theorem withVector_self (m : Pixels) (a : Int) (x : M64) (hj : j < 4) :
    withVector m a x (a + j) = x.pixel j := by
  unfold withVector
  rcases (by omega : j = 0 ∨ j = 1 ∨ j = 2 ∨ j = 3) with rfl | rfl | rfl | rfl
  · rw [if_pos (by omega)]
    rfl
  · rw [if_neg (by omega), if_pos (by omega)]
    rfl
  · rw [if_neg (by omega), if_neg (by omega), if_pos (by omega)]
    rfl
  · rw [if_neg (by omega), if_neg (by omega), if_neg (by omega), if_pos (by omega)]
    rfl

theorem withVector_other {a q : Int} (x : M64) (h : q < a ∨ a + 4 ≤ q) :
    withVector m a x q = m q := by
  unfold withVector
  rw [if_neg (by omega), if_neg (by omega), if_neg (by omega), if_neg (by omega)]

def oldVector (line : VectorLine) (m : Pixels) (v : Nat) : M64 := vectorAt m (line.address v)

/-- What vector `v` becomes. -/
def newVector (kernel : M64 → M64 → M64 → M64) (border : M64) (line : VectorLine) (m : Pixels)
    (v : Nat) : M64 :=
  kernel (if v = 0 then border else oldVector line m (v - 1)) (oldVector line m v)
    (if v + 1 = line.count then border else oldVector line m (v + 1))

/-- The image when the first vectors have been replaced. -/
def replaced (new : Nat → M64) (line : VectorLine) (m : Pixels) : Nat → Pixels
  | 0 => m
  | k + 1 => withVector (replaced new line m k) (line.address k) (new k)

theorem replaced_other {new : Nat → M64} {q : Int}
    (h : ∀ v < k, q < line.address v ∨ line.address v + 4 ≤ q) :
    replaced new line m k q = m q := by
  induction k with
  | zero => rfl
  | succ k ih =>
      rw [replaced, withVector_other _ (h k (Nat.lt_succ_self k))]
      exact ih fun v hv => h v (Nat.lt_succ_of_lt hv)

/-- Two vectors of a line have no pixel in common. -/
theorem address_apart (hstride : 4 ≤ line.stride) (h : v < k) :
    line.address v + 4 ≤ line.address k := by
  have hle : line.stride * ((v : Int) + 1) ≤ line.stride * k :=
    Int.mul_le_mul_of_nonneg_left (by omega) (by omega)
  rw [Int.mul_add, Int.mul_one] at hle
  unfold address
  omega

theorem replaced_self {new : Nat → M64} (hstride : 4 ≤ line.stride) (hv : v < k) (hj : j < 4) :
    replaced new line m k (line.address v + j) = (new v).pixel j := by
  induction k with
  | zero => exact absurd hv (Nat.not_lt_zero v)
  | succ k ih =>
      rw [replaced]
      rcases Nat.eq_or_lt_of_le (Nat.le_of_lt_succ hv) with rfl | hlt
      · exact withVector_self _ _ _ hj
      · have hapart := address_apart hstride hlt
        rw [withVector_other _ (.inl (by omega))]
        exact ih hlt

theorem vectorAt_replaced {new : Nat → M64} (hstride : 4 ≤ line.stride) (h : k ≤ v) :
    vectorAt (replaced new line m k) (line.address v) = oldVector line m v := by
  have hsame : ∀ i : Int, 0 ≤ i → replaced new line m k (line.address v + i) =
      m (line.address v + i) := by
    intro i hi
    refine replaced_other fun w hw => .inr ?_
    have hapart := address_apart hstride (Nat.lt_of_lt_of_le hw h)
    omega
  have h0 := hsame 0 (by decide)
  rw [Int.add_zero] at h0
  unfold oldVector vectorAt
  rw [h0, hsame 1 (by decide), hsame 2 (by decide), hsame 3 (by decide)]

theorem convLine_eq (hstride : 4 ≤ line.stride) (hthree : 3 ≤ line.count)
    (hlt : line.count < 2 ^ 32) : convLine kernel border line m =
      some (replaced (newVector kernel border line m) line m line.count) := by
  obtain ⟨n, hn⟩ : ∃ n, line.count = n + 2 := ⟨line.count - 2, by omega⟩
  have hcount : loopCount (u32 (line.count + (2 ^ 32 - 2))) = n := by
    unfold loopCount u32
    omega
  have hload : ∀ v, v < line.count → line.load m v = some (oldVector line m v) :=
    fun v hv => if_pos hv
  have hstore : ∀ v, v < line.count →
      line.store (replaced (newVector kernel border line m) line m v) v
        (newVector kernel border line m v) =
          some (replaced (newVector kernel border line m) line m (v + 1)) :=
    fun v hv => if_pos hv
  -- The registers before the round for a vector hold the three old ones.
  have hrounds := @rounds_eq _ (convLineLoop kernel line)
    (fun v => ⟨replaced (newVector kernel border line m) line m v,
      if v = 0 then border else oldVector line m (v - 1), oldVector line m v,
      oldVector line m (v + 1)⟩) n 0 fun v _ hv => by
    have hnew : kernel (if v = 0 then border else oldVector line m (v - 1)) (oldVector line m v)
        (oldVector line m (v + 1)) = newVector kernel border line m v := by
      unfold newVector
      rw [if_neg (show ¬v + 1 = line.count by omega)]
    have hnext : line.load (replaced (newVector kernel border line m) line m (v + 1)) (v + 2) =
        some (oldVector line m (v + 2)) := by
      unfold VectorLine.load
      rw [if_pos (by omega), vectorAt_replaced hstride (by omega)]
    unfold convLineLoop
    dsimp only
    rw [hnew, hstore v (by omega), Option.bind_eq_bind, Option.bind_some, hnext]
    rfl
  have hlast : kernel (oldVector line m n) (oldVector line m (n + 1)) border =
      newVector kernel border line m (n + 1) := by
    unfold newVector
    rw [if_neg (by omega), if_pos (by omega)]
    rfl
  have hbefore : kernel (if n = 0 then border else oldVector line m (n - 1)) (oldVector line m n)
      (oldVector line m (n + 1)) = newVector kernel border line m n := by
    unfold newVector
    rw [if_neg (show ¬n + 1 = line.count by omega)]
  rw [Nat.zero_add n] at hrounds
  unfold convLine convRounds
  rw [hcount, hload 0 (by omega), hload 1 (by omega)]
  simp only [Option.bind_eq_bind, Option.bind_some]
  have hstart : (⟨m, border, oldVector line m 0, oldVector line m 1⟩ : ConvRegs) =
      ⟨replaced (newVector kernel border line m) line m 0,
        if 0 = 0 then border else oldVector line m (0 - 1), oldVector line m 0,
        oldVector line m (0 + 1)⟩ := rfl
  rw [hstart, hrounds, Option.bind_some]
  dsimp only
  rw [hbefore, hstore n (by omega), Option.bind_some, hlast, hstore (n + 1) (by omega), hn]

theorem loopCount_pos (ecx : Nat) : 0 < loopCount ecx := Nat.succ_pos _

theorem rounds_eq_none {σ : Type} {body : Nat → σ → Option σ} {i : Nat} {s : σ} (hn : 0 < n)
    (h : body i s = none) : rounds body n i s = none := by
  obtain ⟨n, rfl⟩ : ∃ k, n = k + 1 := ⟨n - 1, by omega⟩
  rw [rounds, h]
  rfl

theorem convRounds_eq_none (hn : 0 < n) (h : line.count < 3) :
    convRounds kernel border line n m = none := by
  have hno : ∀ image v, line.count ≤ v → line.load image v = none :=
    fun image v hv => if_neg (by omega)
  unfold convRounds
  cases line.load m 0 with
  | none => rfl
  | some mm1 =>
      cases line.load m 1 with
      | none => rfl
      | some mm2 =>
          have hround : convLineLoop kernel line 0 ⟨m, border, mm1, mm2⟩ = none := by
            unfold convLineLoop
            dsimp only
            cases line.store m 0 (kernel border mm1 mm2) with
            | none => rfl
            | some image =>
                rw [Option.bind_eq_bind, Option.bind_some, hno image (0 + 2) (by omega)]
                rfl
          simp only [Option.bind_eq_bind, Option.bind_some, rounds_eq_none hn hround,
            Option.bind_none]

theorem convLine_eq_none (h : line.count < 3) : convLine kernel border line m = none :=
  convRounds_eq_none (loopCount_pos _) h

/-- Only lines of three vectors or more are gone through. -/
theorem three_le_of_convLine {m' : Pixels} (h : convLine kernel border line m = some m') :
    3 ≤ line.count := by
  by_contra hlt
  cases (convLine_eq_none (by omega)).symm.trans h

end Line

/-! ## The two routines -/

section Routines

variable {d : ConvVec} {m : Pixels} {first : Int} {n rowsize : Nat}

theorem pixel_convVer4Pixels (x y z : M64) {j : Nat} (hj : j < 4) :
    (convVer4Pixels d x y z).pixel j = convPixel d j (x.pixel j) (y.pixel j) (z.pixel j) := by
  rcases (by omega : j = 0 ∨ j = 1 ∨ j = 2 ∨ j = 3) with rfl | rfl | rfl | rfl
  · rfl
  · rfl
  · rfl
  · rfl

/-- The neighbours of a pixel at an end of its vector are in the next one. -/
theorem pixel_convHor4Pixels (x y z : M64) {j : Nat} (hj : j < 4) :
    (convHor4Pixels d x y z).pixel j = convPixel d j (if j = 0 then x.s3 else y.pixel (j - 1))
      (y.pixel j) (if j = 3 then z.s0 else y.pixel (j + 1)) := by
  have hleft : por (psrlq48 x) (psllq16 y) = ⟨x.s3, y.s0, y.s1, y.s2⟩ := by
    simp [por, psrlq48, psllq16, M64.map₂]
  have hright : por (psllq48 z) (psrlq16 y) = ⟨y.s1, y.s2, y.s3, z.s0⟩ := by
    simp [por, psllq48, psrlq16, M64.map₂]
  unfold convHor4Pixels
  dsimp only
  rw [hleft, hright]
  rcases (by omega : j = 0 ∨ j = 1 ∨ j = 2 ∨ j = 3) with rfl | rfl | rfl | rfl
  · rfl
  · rfl
  · rfl
  · rfl

/-- A pixel of a new vector of a row, from the old row. -/
theorem pixel_newVector_hor {v j : Nat} (hj : j < 4) :
    (newVector (convHor4Pixels d) d.border ⟨first, 4, n⟩ m v).pixel j = convPixel d j
      (if 4 * v + j = 0 then d.border.s3 else m (first + (4 * v + j : Nat) - 1))
      (m (first + (4 * v + j : Nat)))
      (if 4 * v + j + 1 = 4 * n then d.border.s0 else m (first + (4 * v + j : Nat) + 1)) := by
  have hpixel : ∀ w : Nat, ∀ k < 4, (oldVector ⟨first, 4, n⟩ m w).pixel k =
      m (first + 4 * w + k) := fun w k hk => pixel_vectorAt m _ hk
  have hs0 : ∀ w, (oldVector ⟨first, 4, n⟩ m w).s0 = m (first + 4 * w + (0 : Nat)) :=
    fun w => hpixel w 0 (by decide)
  have hs3 : ∀ w, (oldVector ⟨first, 4, n⟩ m w).s3 = m (first + 4 * w + (3 : Nat)) :=
    fun w => hpixel w 3 (by decide)
  rw [newVector, pixel_convHor4Pixels _ _ _ hj]
  congr 1
  · by_cases hj0 : j = 0
    · subst hj0
      by_cases hv0 : v = 0
      · subst hv0
        rfl
      · rw [if_pos rfl, if_neg hv0, if_neg (by omega), hs3]
        congr 1
        omega
    · rw [if_neg hj0, if_neg (by omega), hpixel v (j - 1) (by omega)]
      congr 1
      omega
  · rw [hpixel v j hj]
    congr 1
    omega
  · by_cases hj3 : j = 3
    · subst hj3
      by_cases hlast : v + 1 = n
      · rw [if_pos rfl, if_pos hlast, if_pos (by omega)]
      · rw [if_pos rfl, if_neg hlast, if_neg (by omega), hs0]
        congr 1
        omega
    · rw [if_neg hj3, if_neg (by omega), hpixel v (j + 1) (by omega)]
      congr 1
      omega

theorem horRight_iff (hn : n < 2 ^ 32) : HorRight first n d m ↔ 3 ≤ n := by
  constructor
  · rintro ⟨m', hm', _⟩
    exact three_le_of_convLine hm'
  · intro hthree
    have hstride : (4 : Int) ≤ (⟨first, 4, n⟩ : VectorLine).stride := Int.le_refl 4
    refine ⟨_, convLine_eq hstride hthree hn, ?_, ?_⟩
    · intro i hi
      obtain ⟨v, j, hj, rfl⟩ : ∃ v j, j < 4 ∧ i = 4 * v + j :=
        ⟨i / 4, i % 4, Nat.mod_lt i (by decide), (Nat.div_add_mod i 4).symm⟩
      have hv : v < n := by omega
      have haddress : first + ((4 * v + j : Nat) : Int) =
          (⟨first, 4, n⟩ : VectorLine).address v + j := by
        show _ = first + 4 * v + (j : Int)
        push_cast
        omega
      rw [haddress, replaced_self hstride hv hj, show (4 * v + j) % 4 = j by omega, ← haddress]
      exact pixel_newVector_hor hj
    · intro q hq
      refine replaced_other fun v hv => ?_
      show q < first + 4 * (v : Int) ∨ first + 4 * (v : Int) + 4 ≤ q
      have hv' : v < n := hv
      omega

/-- A pixel of a new vector of a strip, from the old strip. -/
theorem pixel_newVector_ver {v j : Nat} (hj : j < 4) :
    (newVector (convVer4Pixels d) d.border ⟨first, rowsize, n⟩ m v).pixel j = convPixel d j
      (if v = 0 then d.border.pixel j else m (first + rowsize * v + j - rowsize))
      (m (first + rowsize * v + j))
      (if v + 1 = n then d.border.pixel j else m (first + rowsize * v + j + rowsize)) := by
  have hpixel : ∀ w : Nat, (oldVector ⟨first, rowsize, n⟩ m w).pixel j =
      m (first + rowsize * w + j) := fun w => pixel_vectorAt m _ hj
  rw [newVector, pixel_convVer4Pixels _ _ _ hj]
  congr 1
  · by_cases hv0 : v = 0
    · rw [if_pos hv0, if_pos hv0]
    · rw [if_neg hv0, if_neg hv0, hpixel]
      congr 1
      obtain ⟨w, rfl⟩ : ∃ w, v = w + 1 := ⟨v - 1, by omega⟩
      rw [Nat.add_sub_cancel]
      push_cast
      rw [Int.mul_add, Int.mul_one]
      omega
  · exact hpixel v
  · by_cases hlast : v + 1 = n
    · rw [if_pos hlast, if_pos hlast]
    · rw [if_neg hlast, if_neg hlast, hpixel]
      congr 1
      push_cast
      rw [Int.mul_add, Int.mul_one]
      omega

theorem verRight_iff (hn : n < 2 ^ 32) (hrow : 4 ≤ rowsize) :
    VerRight first n rowsize d m ↔ 3 ≤ n := by
  constructor
  · rintro ⟨m', hm', _⟩
    exact three_le_of_convLine hm'
  · intro hthree
    have hstride : (4 : Int) ≤ (⟨first, rowsize, n⟩ : VectorLine).stride := by
      show (4 : Int) ≤ rowsize
      omega
    refine ⟨_, convLine_eq hstride hthree hn, ?_, ?_⟩
    · intro v hv j hj
      have hself := @replaced_self _ m _ n _ (newVector (convVer4Pixels d) d.border
        ⟨first, rowsize, n⟩ m) hstride hv hj
      exact hself.trans (pixel_newVector_ver hj)
    · intro q hq
      refine replaced_other fun v hv => ?_
      show q < first + rowsize * (v : Int) ∨ first + rowsize * (v : Int) + 4 ≤ q
      by_contra hin
      have hcases : ∃ j : Nat, j < 4 ∧ q = first + rowsize * v + j :=
        ⟨(q - (first + rowsize * v)).toNat, by omega, by omega⟩
      obtain ⟨j, hj, hqj⟩ := hcases
      exact hq v hv j hj hqj

/-- When the routines are right, for rows and for strips of columns. -/
theorem convolution_right_iff (d : ConvVec) (m : Pixels) (first : Int) (n rowsize : Nat)
    (hn : n < 2 ^ 32) (hrow : 4 ≤ rowsize) :
    (HorRight first n d m ↔ 3 ≤ n) ∧ (VerRight first n rowsize d m ↔ 3 ≤ n) :=
  ⟨horRight_iff hn, verRight_iff hn hrow⟩

/-- A mask that keeps half of each pixel. -/
def halfMask : ConvVec := ⟨cleared, ⟨0x4000, 0x4000, 0x4000, 0x4000⟩, cleared, cleared⟩

theorem convolution_right_iff_half :
    (HorRight 0 3 halfMask (fun _ => 0) ↔ 3 ≤ 3) ∧
      (VerRight 0 3 12 halfMask (fun _ => 0) ↔ 3 ≤ 3) :=
  convolution_right_iff halfMask (fun _ => 0) 0 3 12 (by decide) (by decide)

/-- A row of eight pixels, and a strip of two rows: the loop goes on behind their ends. -/
theorem not_convolution_right :
    ¬HorRight 0 2 halfMask (fun _ => 0) ∧ ¬VerRight 0 2 8 halfMask (fun _ => 0) := by
  constructor
  · rintro ⟨m', hm', _⟩
    have hnone : pixelConvHorS16 0 2 halfMask (fun _ => 0) = none :=
      convLine_eq_none (show 2 < 3 by decide)
    cases hnone.symm.trans hm'
  · rintro ⟨m', hm', _⟩
    have hnone : pixelConvVerS16 0 2 8 halfMask (fun _ => 0) = none :=
      convLine_eq_none (show 2 < 3 by decide)
    cases hnone.symm.trans hm'

end Routines

end Mmx

end PureDataPacket
