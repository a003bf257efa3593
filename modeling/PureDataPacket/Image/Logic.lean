/-
# `PureDataPacket.Image.Logic` — the operators that work on two pixels at a time

The logic operators, the sign, the magnitude and what is made of them read and write words of two
pixels.  Nothing goes from one half of a word to the other here, so every pixel is treated alike and
for itself; a last pixel without a partner is left as it is.
-/
import PureDataPacket.Image.Thresholding

namespace PureDataPacket

/-! ## The loops -/

/-- `plane[i] = f(plane[i], plane2[i])`. -/
def pairStep (f : BitVec 32 → BitVec 32 → BitVec 32) (i : Nat) (im : Images) : Option Images := do
  let bot ← im.image[2 * i]?
  let top ← im.image[2 * i + 1]?
  let bot2 ← im.second[2 * i]?
  let top2 ← im.second[2 * i + 1]?
  let a := f (top ++ bot) (top2 ++ bot2)
  return { im with
    image := (im.image.set (2 * i) (a.extractLsb' 0 16)).set (2 * i + 1) (a.extractLsb' 16 16) }

/-- `pdp_imageproc_xor_process`. -/
def pdpImageprocXorProcess (width height : Nat) : Images → Option Images :=
  rounds (pairStep (· ^^^ ·)) (u32 (width * height) / 2) 0

/-- `pdp_imageproc_and_process`. -/
def pdpImageprocAndProcess (width height : Nat) : Images → Option Images :=
  rounds (pairStep (· &&& ·)) (u32 (width * height) / 2) 0

/-- `pdp_imageproc_or_process`. -/
def pdpImageprocOrProcess (width height : Nat) : Images → Option Images :=
  rounds (pairStep (· ||| ·)) (u32 (width * height) / 2) 0

/-- `pdp_imageproc_not_process`. -/
def pdpImageprocNotProcess (width height : Nat) : List S16 → Option (List S16) :=
  rounds (wordStep (· ^^^ 0xffffffff#32)) (u32 (width * height) / 2) 0

/-- `(x & 0xffff) | (x << 16)`, in 64 bits. -/
def doubled (x : BitVec 64) : BitVec 64 := (x &&& 0xffff#64) ||| (x <<< 16)

/-- `pdp_imageproc_mask_process`. -/
def pdpImageprocMaskProcess (x : BitVec 64) (width height : Nat) :
    List S16 → Option (List S16) :=
  let mask := doubled x
  rounds (wordStep fun a => (a.setWidth 64 &&& mask).setWidth 32) (u32 (width * height) / 2) 0

/-- `pdp_imageproc_abs_process`. -/
def pdpImageprocAbsProcess (width height : Nat) : List S16 → Option (List S16) :=
  rounds (wordStep fun a => a ^^^ signMask a) (u32 (width * height) / 2) 0

/-- `pdp_imageproc_zthresh_process`. -/
def pdpImageprocZthreshProcess (width height : Nat) : List S16 → Option (List S16) :=
  rounds (wordStep fun a => a &&& ~~~ signMask a) (u32 (width * height) / 2) 0

/-- `pdp_imageproc_ispositive_process`. -/
def pdpImageprocIspositiveProcess (width height : Nat) : List S16 → Option (List S16) :=
  rounds (wordStep fun a => ~~~ signMask a) (u32 (width * height) / 2) 0

/-- `pdp_imageproc_sign_process`. -/
def pdpImageprocSignProcess (width height : Nat) : List S16 → Option (List S16) :=
  rounds (wordStep fun a => signMask a ^^^ 0x7fff7fff#32) (u32 (width * height) / 2) 0

/-- What `pdp_logic` and `pdp_stateless` have done to an image. -/
inductive WordOp where
  | xor
  | and
  | or
  | not
  | mask (x : BitVec 64)
  | abs
  | zthresh
  | ispositive
  | sign

namespace WordOp

def process (width height : Nat) (im : Images) : WordOp → Option Images
  | xor => pdpImageprocXorProcess width height im
  | and => pdpImageprocAndProcess width height im
  | or => pdpImageprocOrProcess width height im
  | not => (pdpImageprocNotProcess width height im.image).map ({ im with image := · })
  | mask x => (pdpImageprocMaskProcess x width height im.image).map ({ im with image := · })
  | abs => (pdpImageprocAbsProcess width height im.image).map ({ im with image := · })
  | zthresh => (pdpImageprocZthreshProcess width height im.image).map ({ im with image := · })
  | ispositive => (pdpImageprocIspositiveProcess width height im.image).map ({ im with image := · })
  | sign => (pdpImageprocSignProcess width height im.image).map ({ im with image := · })

/-- Some of them, one after the other. -/
def processes (width height : Nat) : List WordOp → Images → Option Images
  | [], im => some im
  | op :: l, im => (op.process width height im).bind (processes width height l)

/-- What one of them makes of a pixel and the other image's pixel. -/
def pixel (a b : S16) : WordOp → S16
  | xor => a ^^^ b
  | and => a &&& b
  | or => a ||| b
  | not => ~~~a
  | mask x => a &&& x.setWidth 16
  | abs => if a.msb then ~~~a else a
  | zthresh => if a.msb then 0 else a
  | ispositive => if a.msb then 0 else BitVec.allOnes 16
  | sign => if a.msb then BitVec.intMin 16 else BitVec.intMax 16

/-- What some of them make of it; where the images are one, the other pixel is the same one. -/
def pixels (other : Option S16) : List WordOp → S16 → S16
  | [], a => a
  | op :: l, a => pixels other l (op.pixel a (other.getD a))

end WordOp

/-! ## Words -/

section Words

variable {top bot top2 bot2 : S16}

theorem doubled_halves (x : BitVec 64) :
    (doubled x).setWidth 32 = x.setWidth 16 ++ x.setWidth 16 := by
  have hmask : ∀ i, (0xffff#64).getLsbD i = decide (i < 16) := by
    intro i
    have hall : (0xffff#64) = (BitVec.allOnes 16).setWidth 64 := by decide
    rw [hall, BitVec.getLsbD_setWidth, BitVec.getLsbD_allOnes]
    by_cases hi : i < 16
    · rw [decide_eq_true hi, decide_eq_true (show i < 64 by omega)]
      rfl
    · rw [decide_eq_false hi, Bool.and_false]
  apply BitVec.eq_of_getLsbD_eq
  intro i hi
  rw [BitVec.getLsbD_setWidth, decide_eq_true hi, Bool.true_and, doubled, BitVec.getLsbD_or,
    BitVec.getLsbD_and, hmask, BitVec.getLsbD_shiftLeft, BitVec.getLsbD_append,
    BitVec.getLsbD_setWidth, BitVec.getLsbD_setWidth, decide_eq_true (show i < 64 by omega)]
  by_cases hlow : i < 16
  · simp [hlow]
  · simp [hlow, show i - 16 < 16 by omega]

theorem xor_signOf_eq (p : S16) : p ^^^ signOf p = if p.msb then ~~~p else p := by
  unfold signOf
  split
  · exact BitVec.xor_allOnes
  · exact BitVec.xor_zero

theorem and_not_signOf (p : S16) : p &&& ~~~ signOf p = if p.msb then 0 else p :=
  land_not_signOf p p

theorem not_signOf (p : S16) :
    ~~~ signOf p = if p.msb then 0 else BitVec.allOnes 16 := by
  unfold signOf
  split <;> rfl

theorem signOf_xor (p : S16) :
    signOf p ^^^ 0x7fff#16 = if p.msb then BitVec.intMin 16 else BitVec.intMax 16 := by
  unfold signOf
  split <;> rfl

end Words

/-! ## Images -/

section Images

variable {im : Images} {image : List S16} {f : BitVec 32 → BitVec 32 → BitVec 32}
  {g : S16 → S16 → S16} {n w h : Nat}

/-- What an operator has done to the first `n` words of an image. -/
structure WordsTreated (g : S16 → S16 → S16) (n : Nat) (im im' : Images) : Prop where
  image2 : im'.image2 = im.image2
  length : im'.image.length = im.image.length
  pixels : ∀ i < 2 * n, ∀ a b, im.image[i]? = some a → im.second[i]? = some b →
    im'.image[i]? = some (g a b)
  rest : ∀ i, 2 * n ≤ i → im'.image[i]? = im.image[i]?

theorem WordsTreated.behind (h : WordsTreated g n im im') {i : Nat} (hi : 2 * n ≤ i) :
    im'.second[i]? = im.second[i]? := by
  unfold Images.second
  rw [h.image2]
  cases im.image2 with
  | none => exact h.rest i hi
  | some other => rfl

theorem rounds_pairStep (hf : ∀ top bot top2 bot2,
      f (top ++ bot) (top2 ++ bot2) = g top top2 ++ g bot bot2)
    (hn : 2 * n ≤ im.image.length) (hsecond : 2 * n ≤ im.second.length) :
    ∃ im', rounds (pairStep f) n 0 im = some im' ∧ WordsTreated g n im im' := by
  have hrounds : ∀ m k im₁, k + m = n → WordsTreated g k im im₁ →
      ∃ im', rounds (pairStep f) m k im₁ = some im' ∧ WordsTreated g n im im' := by
    intro m
    induction m with
    | zero =>
        rintro k im₁ rfl hdone
        exact ⟨im₁, rfl, hdone⟩
    | succ m ih =>
        intro k im₁ hk hdone
        have hfirst : 2 * k + 1 < im.image.length := by omega
        have hother : 2 * k + 1 < im.second.length := by omega
        have hbot := hdone.rest (2 * k) (Nat.le_refl _)
        have htop := hdone.rest (2 * k + 1) (by omega)
        have hbot2 := hdone.behind (Nat.le_refl (2 * k))
        have htop2 := hdone.behind (show 2 * k ≤ 2 * k + 1 by omega)
        rw [List.getElem?_eq_getElem (show 2 * k < im.image.length by omega)] at hbot
        rw [List.getElem?_eq_getElem (show 2 * k < im.second.length by omega)] at hbot2
        rw [List.getElem?_eq_getElem hfirst] at htop
        rw [List.getElem?_eq_getElem hother] at htop2
        obtain ⟨bot, hb⟩ : ∃ bot, bot = im.image[2 * k] := ⟨_, rfl⟩
        obtain ⟨top, ht⟩ : ∃ top, top = im.image[2 * k + 1] := ⟨_, rfl⟩
        obtain ⟨bot2, hb2⟩ : ∃ bot2, bot2 = im.second[2 * k] := ⟨_, rfl⟩
        obtain ⟨top2, ht2⟩ : ∃ top2, top2 = im.second[2 * k + 1] := ⟨_, rfl⟩
        rw [← hb] at hbot
        rw [← ht] at htop
        rw [← hb2] at hbot2
        rw [← ht2] at htop2
        have hstep : pairStep f k im₁ = some { im₁ with
            image := (im₁.image.set (2 * k) (g bot bot2)).set (2 * k + 1) (g top top2) } := by
          unfold pairStep
          simp only [hbot, htop, hbot2, htop2, Option.bind_eq_bind, Option.bind_some, hf,
            BitVec.extractLsb'_append_eq_left, BitVec.extractLsb'_append_eq_right, Option.pure_def]
        unfold rounds
        rw [hstep, Option.bind_some]
        refine ih (k + 1) _ (by omega) ⟨hdone.image2, ?_, fun i hi a b ha hb' => ?_, fun i hi => ?_⟩
        · rw [List.length_set, List.length_set, hdone.length]
        · have hlength := hdone.length
          by_cases h1 : i = 2 * k + 1
          · subst h1
            rw [List.getElem?_eq_getElem hfirst, ← ht] at ha
            rw [List.getElem?_eq_getElem hother, ← ht2] at hb'
            cases ha
            cases hb'
            rw [List.getElem?_set_self (by rw [List.length_set]; omega)]
          · rw [List.getElem?_set_ne (Ne.symm h1)]
            by_cases h0 : i = 2 * k
            · subst h0
              rw [List.getElem?_eq_getElem (by omega), ← hb] at ha
              rw [List.getElem?_eq_getElem (by omega), ← hb2] at hb'
              cases ha
              cases hb'
              rw [List.getElem?_set_self (by omega)]
            · rw [List.getElem?_set_ne (Ne.symm h0)]
              exact hdone.pixels i (by omega) a b ha hb'
        · rw [List.getElem?_set_ne (by omega), List.getElem?_set_ne (by omega)]
          exact hdone.rest i (by omega)
  exact hrounds n 0 im (Nat.zero_add n)
    ⟨rfl, rfl, fun i hi => absurd hi (by omega), fun _ _ => rfl⟩

theorem rounds_word {f : BitVec 32 → BitVec 32} {g : S16 → S16}
    (hf : ∀ top bot, f (top ++ bot) = g top ++ g bot) (hn : 2 * n ≤ im.image.length) :
    ∃ im', (rounds (wordStep f) n 0 im.image).map ({ im with image := · }) = some im' ∧
      WordsTreated (fun a _ => g a) n im im' := by
  have hrun := @rounds_wordStep (fun _ => g) g f im.image n hf hn
  refine ⟨{ im with image := wordsDone (fun _ => g) g im.image n }, by rw [hrun]; rfl, rfl,
    length_wordsDone, fun i hi a b ha _ => ?_, fun i hi => ?_⟩
  · obtain ⟨hlt, rfl⟩ := List.getElem?_eq_some_iff.mp ha
    rw [getElem?_wordsDone hlt]
    unfold placeValue
    dsimp only
    rw [if_pos hi, ite_self, List.getD_eq_getElem _ _ hlt]
  · show (wordsDone (fun _ => g) g im.image n)[i]? = _
    rcases Nat.lt_or_ge i im.image.length with hlt | hge
    · rw [getElem?_wordsDone hlt, List.getElem?_eq_getElem hlt]
      unfold placeValue
      rw [if_neg (by omega), List.getD_eq_getElem _ _ hlt]
    · rw [List.getElem?_eq_none (by rw [length_wordsDone]; exact hge), List.getElem?_eq_none hge]

end Images

namespace WordOp

variable {im : Images} {w h : Nat}

theorem process_done (op : WordOp) (himage : 2 * (u32 (w * h) / 2) ≤ im.image.length)
    (hsecond : 2 * (u32 (w * h) / 2) ≤ im.second.length) :
    ∃ im', op.process w h im = some im' ∧
      WordsTreated (fun a b => op.pixel a b) (u32 (w * h) / 2) im im' := by
  cases op with
  | xor => exact rounds_pairStep (fun _ _ _ _ => BitVec.xor_append) himage hsecond
  | and => exact rounds_pairStep (fun _ _ _ _ => BitVec.and_append) himage hsecond
  | or => exact rounds_pairStep (fun _ _ _ _ => BitVec.or_append) himage hsecond
  | not =>
      refine rounds_word (g := fun a => ~~~a) (fun top bot => ?_) himage
      have hones : (0xffffffff#32 : BitVec 32) = BitVec.allOnes 16 ++ BitVec.allOnes 16 := rfl
      rw [hones, BitVec.xor_append, BitVec.xor_allOnes, BitVec.xor_allOnes]
  | mask x =>
      refine rounds_word (g := fun a => a &&& x.setWidth 16) (fun top bot => ?_) himage
      rw [BitVec.setWidth_and, doubled_halves, BitVec.setWidth_setWidth_of_le _ (by decide),
        BitVec.setWidth_eq, BitVec.and_append]
  | abs =>
      refine rounds_word (g := fun a => if a.msb then ~~~a else a) (fun top bot => ?_) himage
      rw [signMask_append, BitVec.xor_append, xor_signOf_eq, xor_signOf_eq]
  | zthresh =>
      refine rounds_word (g := fun a => if a.msb then 0 else a) (fun top bot => ?_) himage
      rw [signMask_append, BitVec.not_append, BitVec.and_append, and_not_signOf, and_not_signOf]
  | ispositive =>
      refine rounds_word (g := fun a => if a.msb then 0 else BitVec.allOnes 16)
        (fun top bot => ?_) himage
      rw [signMask_append, BitVec.not_append, not_signOf, not_signOf]
  | sign =>
      refine rounds_word (g := fun a => if a.msb then BitVec.intMin 16 else BitVec.intMax 16)
        (fun top bot => ?_) himage
      have hlargest : (0x7fff7fff#32 : BitVec 32) = 0x7fff#16 ++ 0x7fff#16 := rfl
      rw [signMask_append, hlargest, BitVec.xor_append, signOf_xor, signOf_xor]

/-- Operators one after the other: every pixel is treated for itself, and a pixel behind the last
word is left alone. -/
theorem processes_pixels (ops : List WordOp) (himage : 2 * (u32 (w * h) / 2) ≤ im.image.length)
    (hsecond : 2 * (u32 (w * h) / 2) ≤ im.second.length) :
    ∃ im', processes w h ops im = some im' ∧ im'.image2 = im.image2 ∧
      im'.image.length = im.image.length ∧
      (∀ i < 2 * (u32 (w * h) / 2), im'.image[i]? = im.image[i]?.map
        (pixels (im.image2.bind (·[i]?)) ops)) ∧
      ∀ i, 2 * (u32 (w * h) / 2) ≤ i → im'.image[i]? = im.image[i]? := by
  induction ops generalizing im with
  | nil =>
      refine ⟨im, rfl, rfl, rfl, fun i _ => ?_, fun _ _ => rfl⟩
      cases im.image[i]? <;> rfl
  | cons op ops ih =>
      obtain ⟨im₁, hop, hdone⟩ := op.process_done himage hsecond
      have hlength₁ := hdone.length
      have hsecond₁ : 2 * (u32 (w * h) / 2) ≤ im₁.second.length := by
        unfold Images.second at hsecond ⊢
        rw [hdone.image2]
        cases hother : im.image2 with
        | none => exact hlength₁ ▸ himage
        | some other =>
            rw [hother] at hsecond
            exact hsecond
      obtain ⟨im', hops, himage2, hlength, hpixels, hrest⟩ := ih (by omega) hsecond₁
      refine ⟨im', ?_, himage2.trans hdone.image2, hlength.trans hlength₁, fun i hi => ?_,
        fun i hi => (hrest i hi).trans (hdone.rest i hi)⟩
      · unfold processes
        rw [hop, Option.bind_some, hops]
      · have ha : im.image[i]? = some im.image[i] := List.getElem?_eq_getElem (by omega)
        have hb : im.second[i]? = some ((im.image2.bind (·[i]?)).getD im.image[i]) := by
          unfold Images.second at hsecond ⊢
          cases hother : im.image2 with
          | none => exact ha
          | some other =>
              rw [hother] at hsecond
              have hlt : i < other.length := Nat.lt_of_lt_of_le hi hsecond
              show other[i]? = some (other[i]?.getD _)
              rw [List.getElem?_eq_getElem hlt]
              rfl
        rw [hpixels i hi, hdone.pixels i hi _ _ ha hb, ha, hdone.image2]
        rfl

theorem processes_pixels_four : ∃ im', processes 2 2 [.not, .abs, .xor] ⟨[1, -1, 3, -4], none⟩ =
    some im' ∧ im'.image.length = 4 := by
  obtain ⟨im', hrun, -, hlength, -⟩ := @processes_pixels ⟨[1, -1, 3, -4], none⟩ 2 2
    [.not, .abs, .xor] (by decide) (by decide)
  exact ⟨im', hrun, hlength⟩

end WordOp

end PureDataPacket
