/-
# `PureDataPacket.Image.Thresholding` — two pixels in one word

`pdp_imageproc_hardthresh_process` and `pdp_imageproc_softthresh_process` take two pixels at a
time, as the halves of a word of 32 bits, and add and subtract without a look at what goes from
one half to the other.  `_decouple` clears the lowest bit of the upper half, so that a borrow
stops there; but the bit is one of the pixel's.

The lower half of a word is the pixel at the even place, as the memory has it.

| | |
| :-- | :-- |
| `add_halves` | addition: the upper half gets the carry of the lower one |
| `sub_halves` | subtraction: the upper half pays for what the lower one borrows |
| `subThresh_halves` | the difference of a magnitude and the threshold, in each half |
| `HardAlike` | the condition for hard thresholding |
| `rounds_wordStep` | the loop over the words of an image |
-/
import PureDataPacket.Image.Agreement
import PureDataPacket.Lib.Lanes

namespace PureDataPacket

/-! ## Words -/

/-- `_sign`: all bits of a half are its sign. -/
def signMask (invec : BitVec 32) : BitVec 32 :=
  let maskTop := invec
  let maskBot := invec
  let maskTop := maskTop &&& 0x80000000#32
  let maskBot := maskBot <<< 16
  let maskBot := maskBot &&& 0x80000000#32
  let maskTop := maskTop.sshiftRight 15
  let maskBot := maskBot.sshiftRight 15
  let maskBot := maskBot >>> 16
  maskTop ||| maskBot

/-- `_decouple`. -/
def decouple (invec : BitVec 32) : BitVec 32 := invec &&& 0xfffeffff#32

/-- `a -= thresh`, in 64 bits. -/
def subThresh (a : BitVec 32) (thresh : BitVec 64) : BitVec 32 :=
  (a.signExtend 64 - thresh).setWidth 32

/-- `thresh |= thresh << 16`. -/
def doubledThresh (thresh : BitVec 64) : BitVec 64 := thresh ||| thresh <<< 16

/-- The body of the loop of `pdp_imageproc_hardthresh_process`. -/
def hardthreshWord (thresh : BitVec 64) (a : BitVec 32) : BitVec 32 :=
  let sign1 := signMask a
  let a := a ^^^ sign1
  let a := decouple a
  let a := subThresh a thresh
  let isign2 := ~~~ signMask a
  let a := a &&& isign2
  let a := decouple a
  let a := (a.signExtend 64 + (thresh &&& isign2.signExtend 64)).setWidth 32
  a ^^^ sign1

/-- The body of the loop of `pdp_imageproc_softthresh_process`. -/
def softthreshWord (thresh : BitVec 64) (a : BitVec 32) : BitVec 32 :=
  let sign1 := signMask a
  let a := a ^^^ sign1
  let a := decouple a
  let a := subThresh a thresh
  let sign2 := signMask a
  let a := a &&& ~~~ sign2
  let a := decouple a
  a ^^^ sign1

/-- `wimage[i] = f(wimage[i])`. -/
def wordStep (f : BitVec 32 → BitVec 32) (i : Nat) (image : List S16) : Option (List S16) := do
  let bot ← image[2 * i]?
  let top ← image[2 * i + 1]?
  let a := f (top ++ bot)
  return (image.set (2 * i) (a.extractLsb' 0 16)).set (2 * i + 1) (a.extractLsb' 16 16)

/-- `pdp_imageproc_hardthresh_process`. -/
def pdpImageprocHardthreshProcess (x : BitVec 64) (width height : Nat) (image : List S16) :
    Option (List S16) :=
  let wsize := u32 (width * height) / 2
  let thresh := doubledThresh x
  rounds (wordStep (hardthreshWord thresh)) wsize 0 image

/-- `pdp_imageproc_softthresh_process`. -/
def pdpImageprocSoftthreshProcess (x : BitVec 64) (width height : Nat) (image : List S16) :
    Option (List S16) :=
  let wsize := u32 (width * height) / 2
  let thresh := doubledThresh x
  rounds (wordStep (softthreshWord thresh)) wsize 0 image

/-! ## Pixels -/

/-- The sign of a pixel, in all its bits. -/
def signOf (p : S16) : S16 := if p.msb then 0xffff#16 else 0#16

/-- The magnitude: a negative pixel is the complement of it. -/
def magnitude (p : S16) : Nat := (p ^^^ signOf p).toNat

/-- A magnitude with the sign of a pixel. -/
def withSign (p : S16) (m : Nat) : S16 := BitVec.ofNat 16 m ^^^ signOf p

def hardThreshold (t : Nat) (p : S16) : S16 := if magnitude p < t then withSign p 0 else p

def softThreshold (t : Nat) (p : S16) : S16 := withSign p (magnitude p - t)

section Halves

variable {top bot x y t : S16} {a : BitVec 32} {thresh : BitVec 64}

theorem land_top (p : S16) : p &&& 0x8000#16 = if p.msb then 0x8000#16 else 0#16 := by
  apply BitVec.eq_of_toNat_eq
  rw [BitVec.toNat_and]
  have hand : p.toNat &&& 2 ^ 15 = (p.toNat.testBit 15).toNat * 2 ^ 15 := Nat.and_two_pow _ 15
  have hmsb : p.msb = p.toNat.testBit 15 := by
    rw [BitVec.msb_eq_getLsbD_last]
    rfl
  rw [hmsb]
  refine hand.trans ?_
  cases p.toNat.testBit 15 with
  | true => rfl
  | false => rfl

theorem signMask_append : signMask (top ++ bot) = signOf top ++ signOf bot := by
  have hshift : (top ++ bot) <<< 16 = (bot ++ 0#16 : BitVec 32) := by
    apply BitVec.eq_of_toNat_eq
    have ht := top.isLt
    have hb := bot.isLt
    rw [BitVec.toNat_shiftLeft, BitVec.toNat_append, BitVec.toNat_append]
    simp only [Nat.shiftLeft_eq, BitVec.toNat_ofNat, Nat.zero_mod, Nat.or_zero]
    have hor : top.toNat * 2 ^ 16 ||| bot.toNat = 2 ^ 16 * top.toNat + bot.toNat := by
      rw [Nat.mul_comm, Nat.two_pow_add_eq_or_of_lt hb]
    rw [hor]
    omega
  have hmask : (0x80000000#32 : BitVec 32) = 0x8000#16 ++ 0#16 := rfl
  unfold signMask
  dsimp only
  rw [hshift, hmask, BitVec.and_append, BitVec.and_append, land_top, land_top, BitVec.and_zero,
    BitVec.and_zero]
  unfold signOf
  cases top.msb <;> cases bot.msb <;> rfl

theorem decouple_append : decouple (top ++ bot) = (top &&& 0xfffe#16) ++ bot := by
  have hmask : (0xfffeffff#32 : BitVec 32) = 0xfffe#16 ++ BitVec.allOnes 16 := rfl
  unfold decouple
  rw [hmask, BitVec.and_append, BitVec.and_allOnes]

theorem toNat_halves (top bot : S16) : (top ++ bot : BitVec 32).toNat =
    2 ^ 16 * top.toNat + bot.toNat := by
  rw [BitVec.toNat_append, Nat.shiftLeft_eq, Nat.mul_comm, Nat.two_pow_add_eq_or_of_lt bot.isLt]

theorem add_halves : (top ++ bot : BitVec 32) + (x ++ y) =
    (top + x + if 2 ^ 16 ≤ bot.toNat + y.toNat then 1#16 else 0#16) ++ (bot + y) := by
  have htop := top.isLt
  have hbot := bot.isLt
  have hx := x.isLt
  have hy := y.isLt
  apply BitVec.eq_of_toNat_eq
  rw [BitVec.toNat_add, toNat_halves, toNat_halves, toNat_halves, BitVec.toNat_add,
    BitVec.toNat_add]
  split
  · rw [BitVec.toNat_add, BitVec.toNat_ofNat]
    omega
  · rw [BitVec.toNat_add, BitVec.toNat_ofNat]
    omega

theorem sub_halves : (top ++ bot : BitVec 32) - (t ++ t) =
    (top - t - if bot.toNat < t.toNat then 1#16 else 0#16) ++ (bot - t) := by
  have hbot := bot.isLt
  have ht := t.isLt
  have hsum : (bot - t).toNat + t.toNat = if bot.toNat < t.toNat then bot.toNat + 2 ^ 16
      else bot.toNat := by
    rw [BitVec.toNat_sub]
    split <;> omega
  have hcarry : (2 ^ 16 ≤ (bot - t).toNat + t.toNat) ↔ bot.toNat < t.toNat := by
    rw [hsum]
    split <;> omega
  have hback := @add_halves (top - t - if bot.toNat < t.toNat then 1#16 else 0#16) (bot - t) t t
  simp only [hcarry] at hback
  have htop : ∀ b : S16, top - t - b + t + b = top := by
    intro b
    grind
  rw [htop, BitVec.sub_add_cancel] at hback
  rw [← hback, BitVec.add_sub_cancel]

/-- Of a difference in 64 bits, the word keeps what it would have been in 32. -/
theorem subThresh_eq : subThresh a thresh = a - thresh.setWidth 32 := by
  apply BitVec.eq_of_toNat_eq
  have ha := a.isLt
  have ht := thresh.isLt
  unfold subThresh
  rw [BitVec.toNat_setWidth, BitVec.toNat_sub, BitVec.toNat_sub, BitVec.toNat_setWidth,
    BitVec.toNat_signExtend]
  simp only [BitVec.toNat_setWidth]
  split <;> omega

theorem narrow_add (b : BitVec 32) :
    (a.signExtend 64 + (thresh &&& b.signExtend 64)).setWidth 32 =
      a + (thresh.setWidth 32 &&& b) := by
  have hnarrow : ∀ c : BitVec 32, (c.signExtend 64).setWidth 32 = c := by
    intro c
    apply BitVec.eq_of_toNat_eq
    have hc := c.isLt
    rw [BitVec.toNat_setWidth, BitVec.toNat_signExtend]
    simp only [BitVec.toNat_setWidth]
    split <;> omega
  rw [BitVec.setWidth_add _ _ (by decide), BitVec.setWidth_and, hnarrow, hnarrow]

theorem doubledThresh_eq {n : Nat} (hn : n < 2 ^ 15) :
    (doubledThresh (BitVec.ofNat 64 n)).setWidth 32 = BitVec.ofNat 16 n ++ BitVec.ofNat 16 n := by
  apply BitVec.eq_of_toNat_eq
  have hor : n ||| n * 2 ^ 16 = 2 ^ 16 * n + n := by
    rw [Nat.or_comm, Nat.mul_comm, Nat.two_pow_add_eq_or_of_lt (by omega)]
  unfold doubledThresh
  rw [BitVec.toNat_setWidth, BitVec.toNat_or, BitVec.toNat_shiftLeft, toNat_halves,
    BitVec.toNat_ofNat, BitVec.toNat_ofNat, Nat.shiftLeft_eq,
    Nat.mod_eq_of_lt (show n < 2 ^ 64 by omega), Nat.mod_eq_of_lt (show n < 2 ^ 16 by omega),
    Nat.mod_eq_of_lt (show n * 2 ^ 16 < 2 ^ 64 by omega), hor]
  omega

/-- A mask of the sign bits that are not set. -/
theorem land_not_signOf (x u : S16) : x &&& ~~~ signOf u = if u.msb then 0#16 else x := by
  unfold signOf
  cases u.msb with
  | true =>
      rw [if_pos rfl, if_pos rfl]
      exact BitVec.and_zero
  | false =>
      rw [if_neg Bool.false_ne_true, if_neg Bool.false_ne_true]
      exact BitVec.and_allOnes

theorem sub_half {m b : S16} (hm : m.toNat < 2 ^ 15) (ht : t.toNat < 2 ^ 15) (hb : b.toNat ≤ 1) :
    (m - t - b).msb = decide (m.toNat < t.toNat + b.toNat) ∧
      (t.toNat + b.toNat ≤ m.toNat → (m - t - b).toNat = m.toNat - t.toNat - b.toNat) := by
  have hvalue : (m - t - b).toNat = if m.toNat < t.toNat + b.toNat then
      2 ^ 16 + m.toNat - t.toNat - b.toNat else m.toNat - t.toNat - b.toNat := by
    rw [BitVec.toNat_sub, BitVec.toNat_sub]
    split <;> omega
  constructor
  · rw [BitVec.msb_eq_decide, hvalue]
    refine decide_eq_decide.mpr ?_
    split <;> omega
  · intro hle
    rw [hvalue, if_neg (by omega)]

theorem toNat_even (x : S16) : (x &&& 0xfffe#16).toNat = x.toNat - x.toNat % 2 := by
  have hlanes := @land_lanes 1 (x.toNat % 2) (x.toNat / 2) 0 (2 ^ 15 - 1) (by omega) (by omega)
  have hx : 2 ^ 1 * (x.toNat / 2) + x.toNat % 2 = x.toNat := Nat.div_add_mod x.toNat 2
  have hmask : 2 ^ 1 * (2 ^ 15 - 1) + 0 = (0xfffe#16).toNat := rfl
  have hlt := x.isLt
  rw [hx, hmask, Nat.and_zero, Nat.and_two_pow_sub_one_eq_mod,
    Nat.mod_eq_of_lt (by omega)] at hlanes
  rw [BitVec.toNat_and, hlanes]
  omega

end Halves

/-! ## The pixel at the odd place -/

/-- What hard thresholding makes of the upper half: the lowest bit is cleared before and after the
subtraction, and `borrow` is what the lower half has borrowed. -/
def hardUpper (t borrow : Nat) (p : S16) : S16 :=
  let m := magnitude p - magnitude p % 2
  if m < t + borrow then withSign p 0
  else withSign p (m - t - borrow - (m - t - borrow) % 2 + t)

/-- What soft thresholding makes of it. -/
def softUpper (t borrow : Nat) (p : S16) : S16 :=
  let m := magnitude p - magnitude p % 2
  if m < t + borrow then withSign p 0 else withSign p (m - t - borrow - (m - t - borrow) % 2)

section Pixels

variable {p top bot : S16} {t : Nat}

theorem magnitude_lt (p : S16) : magnitude p < 2 ^ 15 := by
  have hp := p.isLt
  unfold magnitude signOf
  have hmsb := BitVec.msb_eq_decide p
  cases h : p.msb with
  | true =>
      rw [h] at hmsb
      have hge := of_decide_eq_true hmsb.symm
      have hnot : p ^^^ 0xffff#16 = ~~~ p := BitVec.xor_allOnes
      rw [if_pos rfl, hnot, BitVec.toNat_not]
      omega
  | false =>
      rw [h] at hmsb
      have hlt := of_decide_eq_false hmsb.symm
      rw [if_neg Bool.false_ne_true, BitVec.xor_zero]
      omega

theorem withSign_magnitude (p : S16) : withSign p (magnitude p) = p := by
  unfold withSign magnitude
  rw [BitVec.ofNat_toNat, BitVec.setWidth_eq, BitVec.xor_assoc, BitVec.xor_self, BitVec.xor_zero]

theorem withSign_inj {m m' : Nat} (hm : m < 2 ^ 16) (hm' : m' < 2 ^ 16) :
    withSign p m = withSign p m' ↔ m = m' := by
  constructor
  · intro h
    have hxor := congrArg (fun x => (x ^^^ signOf p).toNat) h
    unfold withSign at hxor
    simp only [BitVec.xor_assoc, BitVec.xor_self, BitVec.xor_zero, BitVec.toNat_ofNat] at hxor
    rwa [Nat.mod_eq_of_lt hm, Nat.mod_eq_of_lt hm'] at hxor
  · rintro rfl
    rfl

/-- A value of 16 bits with the sign of a pixel. -/
theorem xor_signOf {x : S16} {m : Nat} (hx : x.toNat = m) : x ^^^ signOf p = withSign p m := by
  unfold withSign
  rw [← hx, BitVec.ofNat_toNat, BitVec.setWidth_eq]

theorem toNat_ofNat16 (ht : t < 2 ^ 15) : (BitVec.ofNat 16 t).toNat = t := by
  rw [BitVec.toNat_ofNat]
  exact Nat.mod_eq_of_lt (by omega)

theorem exists_borrow (bot : S16) (t : Nat) :
    ∃ borrow : Nat, (if magnitude bot < t then 1 else 0) = borrow ∧ borrow ≤ 1 ∧
      (if magnitude bot < t then 1#16 else 0#16) = BitVec.ofNat 16 borrow := by
  split
  · exact ⟨1, rfl, le_refl 1, rfl⟩
  · exact ⟨0, rfl, Nat.zero_le 1, rfl⟩

theorem subThresh_halves (ht : t < 2 ^ 15) :
    subThresh (decouple ((top ++ bot) ^^^ signMask (top ++ bot)))
        (doubledThresh (BitVec.ofNat 64 t)) =
      (((top ^^^ signOf top) &&& 0xfffe#16) - BitVec.ofNat 16 t -
          if magnitude bot < t then 1#16 else 0#16) ++
        ((bot ^^^ signOf bot) - BitVec.ofNat 16 t) := by
  rw [subThresh_eq, doubledThresh_eq ht, signMask_append, BitVec.xor_append, decouple_append,
    sub_halves, toNat_ofNat16 ht]
  rfl

/-- The lower half of that is negative if the pixel is below the threshold. -/
theorem sub_lower (ht : t < 2 ^ 15) :
    ((bot ^^^ signOf bot) - BitVec.ofNat 16 t).msb = decide (magnitude bot < t) ∧
      (t ≤ magnitude bot →
        ((bot ^^^ signOf bot) - BitVec.ofNat 16 t).toNat = magnitude bot - t) := by
  have h := @sub_half (BitVec.ofNat 16 t) (bot ^^^ signOf bot) 0#16 (magnitude_lt bot)
    (by rw [toNat_ofNat16 ht]; exact ht) (by decide)
  rw [toNat_ofNat16 ht, BitVec.sub_zero] at h
  exact h

theorem sub_upper (ht : t < 2 ^ 15) {borrow : Nat} (hb : borrow ≤ 1) :
    (((top ^^^ signOf top) &&& 0xfffe#16) - BitVec.ofNat 16 t - BitVec.ofNat 16 borrow).msb =
        decide (magnitude top - magnitude top % 2 < t + borrow) ∧
      (t + borrow ≤ magnitude top - magnitude top % 2 →
        (((top ^^^ signOf top) &&& 0xfffe#16) - BitVec.ofNat 16 t -
          BitVec.ofNat 16 borrow).toNat = magnitude top - magnitude top % 2 - t - borrow) := by
  have hborrow := @toNat_ofNat16 borrow (by omega)
  have heven : ((top ^^^ signOf top) &&& 0xfffe#16).toNat = magnitude top - magnitude top % 2 :=
    toNat_even _
  have hlt := magnitude_lt top
  have h := @sub_half (BitVec.ofNat 16 t) ((top ^^^ signOf top) &&& 0xfffe#16)
    (BitVec.ofNat 16 borrow) (by omega) (by rw [toNat_ofNat16 ht]; exact ht)
    (by rw [hborrow]; exact hb)
  rw [toNat_ofNat16 ht, hborrow, heven] at h
  exact h

theorem hardthreshWord_append (ht : t < 2 ^ 15) :
    hardthreshWord (doubledThresh (BitVec.ofNat 64 t)) (top ++ bot) =
      hardUpper t (if magnitude bot < t then 1 else 0) top ++ hardThreshold t bot := by
  obtain ⟨borrow, hborrow, hb, hbit⟩ := exists_borrow bot t
  have htoNat := toNat_ofNat16 ht
  obtain ⟨hmsbU, hvalU⟩ := @sub_upper top t ht borrow hb
  obtain ⟨hmsbL, hvalL⟩ := @sub_lower bot t ht
  have hltL := magnitude_lt bot
  unfold hardthreshWord
  dsimp only
  rw [subThresh_halves ht, hbit, hborrow]
  generalize ((top ^^^ signOf top) &&& 0xfffe#16) - BitVec.ofNat 16 t -
    BitVec.ofNat 16 borrow = u at *
  generalize (bot ^^^ signOf bot) - BitVec.ofNat 16 t = v at *
  rw [narrow_add, doubledThresh_eq ht, signMask_append, signMask_append, BitVec.not_append,
    BitVec.and_append, BitVec.and_append, decouple_append, add_halves, BitVec.xor_append]
  simp only [land_not_signOf, hmsbU, hmsbL, decide_eq_true_eq]
  have hnocarry : ¬ 2 ^ 16 ≤ (if magnitude bot < t then 0#16 else v).toNat +
      (if magnitude bot < t then 0#16 else BitVec.ofNat 16 t).toNat := by
    split
    · decide
    · rw [hvalL (by omega), htoNat]
      omega
  rw [if_neg hnocarry, BitVec.add_zero]
  refine congrArg₂ (fun x y : S16 => (x ++ y : BitVec 32)) ?_ ?_
  · unfold hardUpper
    dsimp only
    split
    · exact xor_signOf rfl
    · next h =>
        have hu := hvalU (by omega)
        have hlt := magnitude_lt top
        refine xor_signOf ?_
        rw [BitVec.toNat_add, toNat_even, hu, htoNat]
        omega
  · unfold hardThreshold
    split
    · exact xor_signOf rfl
    · next h =>
        refine (xor_signOf (m := magnitude bot) ?_).trans (withSign_magnitude bot)
        rw [BitVec.toNat_add, hvalL (by omega), htoNat]
        omega

theorem softthreshWord_append (ht : t < 2 ^ 15) :
    softthreshWord (doubledThresh (BitVec.ofNat 64 t)) (top ++ bot) =
      softUpper t (if magnitude bot < t then 1 else 0) top ++ softThreshold t bot := by
  obtain ⟨borrow, hborrow, hb, hbit⟩ := exists_borrow bot t
  obtain ⟨hmsbU, hvalU⟩ := @sub_upper top t ht borrow hb
  obtain ⟨hmsbL, hvalL⟩ := @sub_lower bot t ht
  unfold softthreshWord
  dsimp only
  rw [subThresh_halves ht, hbit, hborrow]
  generalize ((top ^^^ signOf top) &&& 0xfffe#16) - BitVec.ofNat 16 t -
    BitVec.ofNat 16 borrow = u at *
  generalize (bot ^^^ signOf bot) - BitVec.ofNat 16 t = v at *
  rw [signMask_append, signMask_append, BitVec.not_append, BitVec.and_append, decouple_append,
    BitVec.xor_append]
  simp only [land_not_signOf, hmsbU, hmsbL, decide_eq_true_eq]
  refine congrArg₂ (fun x y : S16 => (x ++ y : BitVec 32)) ?_ ?_
  · unfold softUpper
    dsimp only
    split
    · exact xor_signOf rfl
    · next h =>
        refine xor_signOf ?_
        rw [toNat_even, hvalU (by omega)]
  · unfold softThreshold
    split
    · next h => rw [Nat.sub_eq_zero_of_le (by omega)]; exact xor_signOf rfl
    · next h => exact xor_signOf (hvalL (by omega))

/-- A pixel at an odd place, beside `q`: it is below the threshold, or no bit of it is lost. -/
def HardApart (t : Nat) (q p : S16) : Prop :=
  magnitude p < t ∨ magnitude p % 2 = 0 ∧ t % 2 = 0 ∧ t ≤ magnitude q

def SoftApart (t : Nat) (q p : S16) : Prop :=
  magnitude p ≤ t ∨ magnitude p % 2 = 0 ∧ t % 2 = 0 ∧ t ≤ magnitude q

theorem hardUpper_iff (ht : t < 2 ^ 15) :
    hardUpper t (if magnitude bot < t then 1 else 0) top = hardThreshold t top ↔
      HardApart t bot top := by
  have hlt := magnitude_lt top
  have hkept : hardThreshold t top =
      withSign top (if magnitude top < t then 0 else magnitude top) := by
    unfold hardThreshold
    split
    · rfl
    · exact (withSign_magnitude top).symm
  have hupper : hardUpper t (if magnitude bot < t then 1 else 0) top = withSign top
      (if magnitude top - magnitude top % 2 < t + (if magnitude bot < t then 1 else 0) then 0
        else magnitude top - magnitude top % 2 - t - (if magnitude bot < t then 1 else 0) -
          (magnitude top - magnitude top % 2 - t - (if magnitude bot < t then 1 else 0)) % 2 +
            t) := by
    unfold hardUpper
    exact (apply_ite (withSign top) _ _ _).symm
  rw [hkept, hupper, withSign_inj (by split_ifs <;> omega) (by split <;> omega)]
  unfold HardApart
  split_ifs <;> omega

theorem softUpper_iff (ht : t < 2 ^ 15) :
    softUpper t (if magnitude bot < t then 1 else 0) top = softThreshold t top ↔
      SoftApart t bot top := by
  have hlt := magnitude_lt top
  have hupper : softUpper t (if magnitude bot < t then 1 else 0) top = withSign top
      (if magnitude top - magnitude top % 2 < t + (if magnitude bot < t then 1 else 0) then 0
        else magnitude top - magnitude top % 2 - t - (if magnitude bot < t then 1 else 0) -
          (magnitude top - magnitude top % 2 - t - (if magnitude bot < t then 1 else 0)) % 2) := by
    unfold softUpper
    exact (apply_ite (withSign top) _ _ _).symm
  unfold softThreshold
  rw [hupper, withSign_inj (by split_ifs <;> omega) (by omega)]
  unfold SoftApart
  split_ifs <;> omega

end Pixels

/-! ## Images -/

/-- Pixel `i` after `n` words: the lower half depends on itself only, the upper half on both. -/
def placeValue (upper : S16 → S16 → S16) (lower : S16 → S16) (image : List S16) (n i : Nat) : S16 :=
  let p := image.getD i 0
  if i < 2 * n then
    if i % 2 = 0 then lower p else upper (image.getD (i - 1) 0) p
  else p

/-- The image after `n` words. -/
def wordsDone (upper : S16 → S16 → S16) (lower : S16 → S16) (image : List S16) (n : Nat) :
    List S16 :=
  (List.range image.length).map (placeValue upper lower image n)

section Images

variable {upper : S16 → S16 → S16} {lower : S16 → S16} {f : BitVec 32 → BitVec 32}
  {image : List S16} {n i w h t : Nat}

theorem length_wordsDone : (wordsDone upper lower image n).length = image.length := by
  unfold wordsDone
  rw [List.length_map, List.length_range]

theorem getElem?_wordsDone (hi : i < image.length) :
    (wordsDone upper lower image n)[i]? = some (placeValue upper lower image n i) := by
  unfold wordsDone
  rw [List.getElem?_map, List.getElem?_range hi]
  rfl

theorem wordStep_wordsDone (hf : ∀ top bot, f (top ++ bot) = upper bot top ++ lower bot)
    (hn : 2 * n + 1 < image.length) :
    wordStep f n (wordsDone upper lower image n) = some (wordsDone upper lower image (n + 1)) := by
  have hbot : placeValue upper lower image n (2 * n) = image.getD (2 * n) 0 := if_neg (by omega)
  have htop : placeValue upper lower image n (2 * n + 1) = image.getD (2 * n + 1) 0 :=
    if_neg (by omega)
  unfold wordStep
  rw [getElem?_wordsDone (by omega), getElem?_wordsDone hn, hbot, htop]
  simp only [Option.bind_eq_bind, Option.bind_some, hf, BitVec.extractLsb'_append_eq_left,
    BitVec.extractLsb'_append_eq_right, Option.pure_def]
  refine congrArg some (List.ext_getElem? fun i => ?_)
  rcases Nat.lt_or_ge i image.length with hi | hi
  · rw [getElem?_wordsDone hi, List.getElem?_set, List.getElem?_set, List.length_set,
      length_wordsDone, getElem?_wordsDone hi]
    unfold placeValue
    dsimp only
    by_cases h1 : 2 * n + 1 = i
    · subst h1
      rw [if_pos rfl, if_pos hn, if_pos (by omega), if_neg (by omega), Nat.add_sub_cancel]
    · rw [if_neg h1]
      by_cases h0 : 2 * n = i
      · subst h0
        rw [if_pos rfl, if_pos hi, if_pos (by omega), if_pos (by omega)]
      · rw [if_neg h0]
        by_cases hlt : i < 2 * n
        · rw [if_pos hlt, if_pos (show i < 2 * (n + 1) by omega)]
        · rw [if_neg hlt, if_neg (show ¬ i < 2 * (n + 1) by omega)]
  · rw [List.getElem?_eq_none, List.getElem?_eq_none]
    · rw [length_wordsDone]
      exact hi
    · rw [List.length_set, List.length_set, length_wordsDone]
      exact hi

theorem rounds_wordStep (hf : ∀ top bot, f (top ++ bot) = upper bot top ++ lower bot)
    (hn : 2 * n ≤ image.length) :
    rounds (wordStep f) n 0 image = some (wordsDone upper lower image n) := by
  have hstart : wordsDone upper lower image 0 = image := by
    refine List.ext_getElem? fun i => ?_
    rcases Nat.lt_or_ge i image.length with hi | hi
    · rw [getElem?_wordsDone hi, List.getElem?_eq_getElem hi]
      unfold placeValue
      rw [if_neg (by omega), List.getD_eq_getElem _ _ hi]
    · rw [List.getElem?_eq_none (by rw [length_wordsDone]; exact hi), List.getElem?_eq_none hi]
  have h := @rounds_eq _ (wordStep f) (wordsDone upper lower image) n 0 fun k _ hk =>
    wordStep_wordsDone hf (by omega)
  rwa [hstart, Nat.zero_add] at h

theorem wordsDone_eq_map : wordsDone upper lower image (image.length / 2) = image.map lower ↔
    (∀ i, 2 * i + 1 < image.length →
      upper (image.getD (2 * i) 0) (image.getD (2 * i + 1) 0) = lower (image.getD (2 * i + 1) 0)) ∧
    (image.length % 2 = 1 →
      lower (image.getD (image.length - 1) 0) = image.getD (image.length - 1) 0) := by
  have hplace : wordsDone upper lower image (image.length / 2) = image.map lower ↔
      ∀ i < image.length, placeValue upper lower image (image.length / 2) i =
        lower (image.getD i 0) := by
    constructor
    · intro heq i hi
      have hget := @getElem?_wordsDone upper lower image (image.length / 2) i hi
      rw [heq, List.getElem?_map, List.getElem?_eq_getElem hi] at hget
      rw [List.getD_eq_getElem _ _ hi]
      exact (Option.some.inj hget).symm
    · intro hall
      refine List.ext_getElem? fun i => ?_
      rcases Nat.lt_or_ge i image.length with hi | hi
      · rw [getElem?_wordsDone hi, hall i hi, List.getElem?_map, List.getElem?_eq_getElem hi,
          List.getD_eq_getElem _ _ hi]
        rfl
      · rw [List.getElem?_eq_none (by rw [length_wordsDone]; exact hi),
          List.getElem?_eq_none (by rw [List.length_map]; exact hi)]
  rw [hplace]
  constructor
  · intro hall
    constructor
    · intro i hi
      have h := hall (2 * i + 1) hi
      unfold placeValue at h
      dsimp only at h
      rwa [if_pos (by omega), if_neg (by omega), Nat.add_sub_cancel] at h
    · intro hodd
      have h := hall (image.length - 1) (by omega)
      unfold placeValue at h
      dsimp only at h
      rw [if_neg (by omega)] at h
      exact h.symm
  · rintro ⟨hpairs, hlast⟩ i hi
    unfold placeValue
    dsimp only
    by_cases hlt : i < 2 * (image.length / 2)
    · rw [if_pos hlt]
      by_cases heven : i % 2 = 0
      · rw [if_pos heven]
      · rw [if_neg heven]
        have h := hpairs (i / 2) (by omega)
        rwa [show 2 * (i / 2) + 1 = i by omega, show 2 * (i / 2) = i - 1 by omega] at h
    · rw [if_neg hlt]
      have h := hlast (by omega)
      rw [show image.length - 1 = i by omega] at h
      exact h.symm

/-- Hard thresholding treats the pixels of an image alike: at the odd places it loses no bit, and
a last pixel without a partner has nothing to lose. -/
def HardAlike (t : Nat) (image : List S16) : Prop :=
  (∀ i, 2 * i + 1 < image.length →
    HardApart t (image.getD (2 * i) 0) (image.getD (2 * i + 1) 0)) ∧
  (image.length % 2 = 1 → t ≤ magnitude (image.getD (image.length - 1) 0) ∨
    magnitude (image.getD (image.length - 1) 0) = 0)

def SoftAlike (t : Nat) (image : List S16) : Prop :=
  (∀ i, 2 * i + 1 < image.length →
    SoftApart t (image.getD (2 * i) 0) (image.getD (2 * i + 1) 0)) ∧
  (image.length % 2 = 1 → t = 0 ∨ magnitude (image.getD (image.length - 1) 0) = 0)

theorem hardThreshold_eq_self {p : S16} :
    hardThreshold t p = p ↔ t ≤ magnitude p ∨ magnitude p = 0 := by
  have hlt := magnitude_lt p
  unfold hardThreshold
  split
  · next h =>
      have hself := @withSign_inj p 0 (magnitude p) (by decide) (by omega)
      rw [withSign_magnitude] at hself
      rw [hself]
      omega
  · next h => exact iff_of_true rfl (Or.inl (Nat.le_of_not_lt h))

theorem softThreshold_eq_self {p : S16} : softThreshold t p = p ↔ t = 0 ∨ magnitude p = 0 := by
  have hlt := magnitude_lt p
  have hself := @withSign_inj p (magnitude p - t) (magnitude p) (by omega) (by omega)
  rw [withSign_magnitude] at hself
  unfold softThreshold
  rw [hself]
  omega

/-- When the two routines do to every pixel what they do to one at an even place. -/
theorem threshold_iff (ht : t < 2 ^ 15) (hlen : image.length = w * h) (hsize : w * h < 2 ^ 32) :
    (pdpImageprocHardthreshProcess (BitVec.ofNat 64 t) w h image =
      some (image.map (hardThreshold t)) ↔ HardAlike t image) ∧
    (pdpImageprocSoftthreshProcess (BitVec.ofNat 64 t) w h image =
      some (image.map (softThreshold t)) ↔ SoftAlike t image) := by
  have hwords : u32 (w * h) / 2 = image.length / 2 := by
    rw [u32_eq_self hsize, hlen]
  constructor
  · have hrun := @rounds_wordStep (fun bot => hardUpper t (if magnitude bot < t then 1 else 0))
      (hardThreshold t) (hardthreshWord (doubledThresh (BitVec.ofNat 64 t))) image
      (image.length / 2) (fun _ _ => hardthreshWord_append ht) (by omega)
    unfold pdpImageprocHardthreshProcess
    dsimp only
    rw [hwords, hrun, Option.some.injEq, wordsDone_eq_map]
    unfold HardAlike
    simp only [hardUpper_iff ht, hardThreshold_eq_self]
  · have hrun := @rounds_wordStep (fun bot => softUpper t (if magnitude bot < t then 1 else 0))
      (softThreshold t) (softthreshWord (doubledThresh (BitVec.ofNat 64 t))) image
      (image.length / 2) (fun _ _ => softthreshWord_append ht) (by omega)
    unfold pdpImageprocSoftthreshProcess
    dsimp only
    rw [hwords, hrun, Option.some.injEq, wordsDone_eq_map]
    unfold SoftAlike
    simp only [softUpper_iff ht, softThreshold_eq_self]

/-- Two pixels. -/
theorem threshold_iff_pair :
    (pdpImageprocHardthreshProcess (BitVec.ofNat 64 2) 2 1 [3, 4] =
      some (([3, 4] : List S16).map (hardThreshold 2)) ↔ HardAlike 2 [3, 4]) ∧
    (pdpImageprocSoftthreshProcess (BitVec.ofNat 64 2) 2 1 [3, 4] =
      some (([3, 4] : List S16).map (softThreshold 2)) ↔ SoftAlike 2 [3, 4]) :=
  threshold_iff (by decide) rfl (by decide)

/-- Of two pixels with the value 3, the second one comes out as 2, or as 0. -/
theorem not_threshold :
    pdpImageprocHardthreshProcess (BitVec.ofNat 64 2) 2 1 [3, 3] = some [3, 2] ∧
      pdpImageprocSoftthreshProcess (BitVec.ofNat 64 2) 2 1 [3, 3] = some [1, 0] ∧
      ¬ (∃ f : S16 → S16, pdpImageprocHardthreshProcess (BitVec.ofNat 64 2) 2 1 [3, 3] =
        some (([3, 3] : List S16).map f)) := by
  have hhard : pdpImageprocHardthreshProcess (BitVec.ofNat 64 2) 2 1 [3, 3] = some [3, 2] := by
    decide
  refine ⟨hhard, by decide, ?_⟩
  rintro ⟨f, hf⟩
  rw [hhard] at hf
  have hlist : ([3, 2] : List S16) = [f 3, f 3] := Option.some.inj hf
  have hfirst : f 3 = 3 := (List.cons.inj hlist).1.symm
  have hsecond : f 3 = 2 := (List.cons.inj (List.cons.inj hlist).2).1.symm
  rw [hfirst] at hsecond
  exact absurd hsecond (by decide)

end Images

end PureDataPacket
