/-
# `PureDataPacket.Type.Texture` — the dimensions of a texture

The dimensions of a texture are powers of two.  A request for a texture rounds its dimensions
twice: `_round_to_pow_2` does it for the description that `pdp_packet_reuse` gets, from 8 on, and
if there is nothing to reuse, `_pdp_packet_texture_old_or_dummy` does it again for the header of
a new packet, from 64 on.  The description of the packet comes from its header.

`reusesCreated_iff` says for which requests that is the same description, so that a second
request finds the texture of the first one when that is unused.  The first loop is one over an
`int`, and it does not end for more than `2 ^ 30`.

Only the words of the subheader that these functions look at are modelled, and `glIsTexture` is
whatever it is at the time.

| | |
| :-- | :-- |
| `whileLoop_unique` | what a loop returns does not depend on the fuel |
| `loops_agree` | from the same power of two on, both loops end with the same one |
| `roundToPow2_diverges` | where the first loop does not end |
| `useTexture_new` | the description of a new texture has the dimensions of the second rounding |
-/
import PureDataPacket.Kernel.ReuseFifo

namespace PureDataPacket

open Pool

/-! ## Loops -/

/-- `while (test(r)) r = next(r);`, for as many rounds as there is fuel. -/
def whileLoop {α : Type} (test : α → Bool) (next : α → α) : Nat → α → Option α
  | 0, _ => none
  | fuel + 1, r => if test r then whileLoop test next fuel (next r) else some r

section Loop

variable {α : Type} {test : α → Bool} {next : α → α} {r r' : α}

theorem test_of_whileLoop {fuel : Nat} (h : whileLoop test next fuel r = some r') :
    test r' = false := by
  induction fuel generalizing r with
  | zero => cases h
  | succ fuel ih =>
      rw [whileLoop] at h
      cases ht : test r with
      | true =>
          rw [ht, if_pos rfl] at h
          exact ih h
      | false =>
          rw [ht, if_neg Bool.false_ne_true] at h
          exact Option.some.inj h ▸ ht

theorem whileLoop_inv {fuel : Nat} {I : α → Prop}
    (hnext : ∀ r, I r → test r = true → I (next r)) (hr : I r)
    (h : whileLoop test next fuel r = some r') : I r' := by
  induction fuel generalizing r with
  | zero => cases h
  | succ fuel ih =>
      rw [whileLoop] at h
      cases ht : test r with
      | true =>
          rw [ht, if_pos rfl] at h
          exact ih (hnext r hr ht) h
      | false =>
          rw [ht, if_neg Bool.false_ne_true] at h
          exact Option.some.inj h ▸ hr

theorem whileLoop_unique {fuel fuel' : Nat} {x y : α} (h : whileLoop test next fuel r = some x)
    (h' : whileLoop test next fuel' r = some y) : x = y := by
  induction fuel generalizing r fuel' with
  | zero => cases h
  | succ fuel ih =>
      cases fuel' with
      | zero => cases h'
      | succ fuel' =>
          rw [whileLoop] at h h'
          cases ht : test r with
          | true =>
              rw [ht, if_pos rfl] at h h'
              exact ih h h'
          | false =>
              rw [ht, if_neg Bool.false_ne_true] at h h'
              exact (Option.some.inj h).symm.trans (Option.some.inj h')

end Loop

/-! ## Dimensions -/

/-- `_round_to_pow_2`: the smallest power of two from 8 on that is not less. -/
def roundToPow2 (fuel : Nat) (n : Int) : Option Int :=
  whileLoop (fun r => decide (n > r)) (fun r => toInt32 (r * 2)) fuel 8

/-- `while (t->width < width) t->width <<= 1;`, and the same for the height. -/
def doubleUpTo (fuel dim : Nat) : Option Nat :=
  whileLoop (fun r => decide (r < dim)) (fun r => u32 (r * 2)) fuel 64

/-! ## Descriptions -/

/-- `PDP_TEXTURE`. -/
def pdpTexture : Nat := 4

/-- `GL_LUMINANCE`. -/
def glLuminance : Int := 0x1909

/-- `GL_RGB`. -/
def glRgb : Int := 0x1907

/-- `GL_RGBA`. -/
def glRgba : Int := 0x1908

/-- The formats that a description has a word for. -/
def textureFormatName (format : Int) : Option (List Char) :=
  if format = glLuminance then some "/grey".toList
  else if format = glRgb then some "/rgb".toList
  else if format = glRgba then some "/rgba".toList
  else none

/-- `_pdp_get_tex_description_from_params`. -/
def pdpGetTexDescriptionFromParams (width height format : Int) : Symbol :=
  match textureFormatName format with
  | none => "texture".toList ++ "/unknown".toList
  | some name => "texture".toList ++ name ++ '/' :: printInt width ++ 'x' :: printInt height

/-- `t_texture`. -/
structure Texture where
  texObj : Nat
  format : Int
  width : Nat
  height : Nat
  subWidth : Nat
  subHeight : Nat
deriving DecidableEq

/-- `_pdp_tex_get_description`. -/
def pdpTexGetDescription (texture : Texture) : Option Meta → Symbol
  | none => symInvalid
  | some header =>
      match header.desc with
      | some d => d
      | none =>
          if header.type = pdpTexture then
            pdpGetTexDescriptionFromParams (toInt32 texture.width) (toInt32 texture.height)
              texture.format
          else symUnknown

/-! ## The constructor -/

/-- The packets, the subheaders of the textures among them, and the answers of `glIsTexture`. -/
structure TexturePool where
  pool : Pool
  pdpTexInfo : Int → Texture
  glIsTexture : Nat → Bool

/-- `pdp_packet_texture_isvalid`. -/
def pdpPacketTextureIsvalid (packet : Int) (s : TexturePool) : Bool :=
  match s.pool.pdpPacketHeader packet with
  | none => false
  | some header =>
      if pdpTexture ≠ header.type then false else s.glIsTexture (s.pdpTexInfo packet).texObj

/-- Reuse a texture packet or get a new one, with a subheader that is zero. -/
def reuseOrCreate (description : Symbol) (s : TexturePool) : Except Fault (Int × TexturePool) :=
  match pdpPacketReuse (some description) s.pool with
  | .error e => .error e
  | .ok (p, pool) =>
      if -1 = p then
        match pdpPacketCreate pdpTexture 0 pool with
        | .error e => .error e
        | .ok (p, pool) =>
            .ok (p, { s with
              pool := pool
              pdpTexInfo := Function.update s.pdpTexInfo p ⟨0, 0, 0, 0, 0, 0⟩ })
      else .ok (p, { s with pool := pool })

/-- The end of `_pdp_packet_texture_old_or_dummy`: the dimensions, the class and the
description. -/
def initTexture (fuel width height : Nat) (format p : Int) (h : Packet) (s : TexturePool) :
    Option TexturePool :=
  match doubleUpTo fuel width, doubleUpTo fuel height with
  | some w, some h' =>
      let t : Texture := { s.pdpTexInfo p with
        width := w, height := h', format := format, subWidth := width, subHeight := height }
      let h := { h with theclass := some textureClass }
      let h := { h with desc := some (pdpTexGetDescription t (some h.toMeta)) }
      some { s with
        pool := s.pool.put p (some h)
        pdpTexInfo := Function.update s.pdpTexInfo p t }
  | _, _ => none

/-- What `_pdp_packet_texture_old_or_dummy` does with the packet that it has got. -/
def useTexture (fuel width height : Nat) (format p : Int) (s : TexturePool) :
    Option (Int × TexturePool) :=
  if -1 = p then some (-1, s)
  else
    match s.pool.pdpPacketHeader p with
    | none => some (-1, s)
    | some h =>
        let t := s.pdpTexInfo p
        if pdpPacketTextureIsvalid p s && decide (t.width ≥ width) && decide (t.height ≥ height) &&
            decide (t.format = format) then
          some (p, { s with
            pdpTexInfo := Function.update s.pdpTexInfo p
              { t with subWidth := width, subHeight := height } })
        else (initTexture fuel width height format p h s).map fun s => (p, s)

/-- The description that a request asks for. -/
def requested (fuel width height : Nat) (format : Int) : Option Symbol :=
  match roundToPow2 fuel (toInt32 width), roundToPow2 fuel (toInt32 height) with
  | some p2w, some p2h => some (pdpGetTexDescriptionFromParams p2w p2h format)
  | _, _ => none

/-- `_pdp_packet_texture_old_or_dummy`.  There is no result if the fuel of its loops is used
up. -/
def pdpPacketTextureOldOrDummy (fuel width height : Nat) (format : Int) (s : TexturePool) :
    Option (Except Fault (Int × TexturePool)) :=
  match requested fuel width height format with
  | none => none
  | some description =>
      match reuseOrCreate description s with
      | .error e => some (.error e)
      | .ok (p, s) => (useTexture fuel width height format p s).map .ok

/-! ## What a request is for -/

/-- Packet `p` of description `d` is unused and nobody else's, and no other packet in the fifo
of this description is free. -/
structure Waiting (p : Int) (d : Symbol) (s : Pool) : Prop where
  header : ∃ q, s.pdpPacketHeader p = some q ∧ q.users = 0 ∧ q.desc = some d
  listed : p ∈ s.reusefifo d
  others : ∀ x ∈ s.reusefifo d, x ≠ p → ∃ q, s.pdpPacketHeader x = some q ∧
    (q.users ≠ 0 ∨ ∃ d', q.desc = some d' ∧ pdpTypeDescriptionMatch d' d = false)

/-- A request ends; what it asks for is the description of each packet that such a request has
created, and it gets that packet back once it is unused, without a change to another packet. -/
def ReusesCreated (width height : Nat) (format : Int) : Prop :=
  ∃ fuel d, requested fuel width height format = some d ∧
    ∀ fuel' s p s₁, pdpPacketTextureOldOrDummy fuel' width height format s = some (.ok (p, s₁)) →
      p ≠ -1 → s.pool.pdpPacketHeader p = none →
        (∃ q, s₁.pool.pdpPacketHeader p = some q ∧ q.desc = some d) ∧
        ∀ s₂, Waiting p d s₂.pool → ∃ s₃,
          pdpPacketTextureOldOrDummy fuel width height format s₂ = some (.ok (p, s₃)) ∧
            ∀ x, x ≠ p → s₃.pool.pdpPacketHeader x = s₂.pool.pdpPacketHeader x

/-! ## Rounding -/

section Rounding

variable {n fuel : Nat}

/-- A power of two less than `2 ^ 30` can be doubled in an `int`. -/
theorem toInt32_double {k : Nat} (hk : k < 30) :
    toInt32 (((2 ^ k : Nat) : Int) * 2) = ((2 ^ (k + 1) : Nat) : Int) := by
  have hbound : 2 ^ (k + 1) < 2 ^ 31 := Nat.pow_lt_pow_right (by decide) (by omega)
  have hdouble : ((2 ^ k : Nat) : Int) * 2 = ((2 ^ (k + 1) : Nat) : Int) := by
    rw [Nat.pow_succ]
    exact (Int.natCast_mul _ 2).symm
  rw [hdouble]
  exact toInt32_of_nat_lt hbound

theorem loops_agree (hn : n ≤ 2 ^ 30) {k : Nat} (hk : k ≤ 30) (hfuel : 31 ≤ k + fuel) :
    ∃ m, k ≤ m ∧ m ≤ 30 ∧
      whileLoop (fun r : Int => decide ((n : Int) > r)) (fun r => toInt32 (r * 2)) fuel
        ((2 ^ k : Nat) : Int) = some ((2 ^ m : Nat) : Int) ∧
      whileLoop (fun r => decide (r < n)) (fun r => u32 (r * 2)) fuel (2 ^ k) = some (2 ^ m) := by
  induction fuel generalizing k with
  | zero => omega
  | succ fuel ih =>
      rw [whileLoop, whileLoop]
      by_cases hlt : 2 ^ k < n
      · -- There is a next power of two, and it is neither cut nor negative.
        have hk' : k < 30 := (Nat.pow_lt_pow_iff_right (by decide)).mp (Nat.lt_of_lt_of_le hlt hn)
        have hdouble : 2 ^ k * 2 = 2 ^ (k + 1) := (Nat.pow_succ 2 k).symm
        have hbound : 2 ^ (k + 1) < 2 ^ 31 := Nat.pow_lt_pow_right (by decide) (by omega)
        have hnat : u32 (2 ^ k * 2) = 2 ^ (k + 1) := by
          rw [hdouble]
          exact u32_eq_self (Nat.lt_trans hbound (by decide))
        have hlt' : (n : Int) > ((2 ^ k : Nat) : Int) := Int.ofNat_lt.mpr hlt
        rw [if_pos (decide_eq_true hlt'),
          if_pos (decide_eq_true hlt), toInt32_double hk', hnat]
        obtain ⟨m, hkm, hm, hboth⟩ := @ih (k + 1) (by omega) (by omega)
        exact ⟨m, by omega, hm, hboth⟩
      · have hlt' : ¬ (n : Int) > ((2 ^ k : Nat) : Int) := fun h => hlt (Int.ofNat_lt.mp h)
        rw [if_neg fun h => hlt' (of_decide_eq_true h), if_neg fun h => hlt (of_decide_eq_true h)]
        exact ⟨k, Nat.le_refl k, hk, rfl, rfl⟩

theorem roundToPow2_ends (hn : n ≤ 2 ^ 30) :
    ∃ m ≤ 30, roundToPow2 31 n = some ((2 ^ m : Nat) : Int) := by
  obtain ⟨m, _, hm, hround, _⟩ := @loops_agree n 31 hn 3 (by decide) (by decide)
  exact ⟨m, hm, hround⟩

theorem doubleUpTo_ends (hn : n ≤ 2 ^ 30) : ∃ m ≤ 30, 6 ≤ m ∧ doubleUpTo 31 n = some (2 ^ m) := by
  obtain ⟨m, hkm, hm, _, hdouble⟩ :=
    @loops_agree n 31 hn 6 (by decide) (by decide)
  exact ⟨m, hm, hkm, hdouble⟩

/-- More than 32 is rounded to 64 at least, by the first loop as well. -/
theorem roundToPow2_large (hn : n ≤ 2 ^ 30) (hlarge : 32 < n) :
    ∃ m ≤ 30, roundToPow2 31 n = some ((2 ^ m : Nat) : Int) ∧ doubleUpTo 31 n = some (2 ^ m) := by
  obtain ⟨m, _, hm, hround, hdouble⟩ :=
    @loops_agree n 28 hn 6 (by decide) (by decide)
  refine ⟨m, hm, ?_, ?_⟩
  · have h8 : (n : Int) > 8 := by omega
    have h16 : (n : Int) > toInt32 (8 * 2) := show (n : Int) > 16 by omega
    have h32 : (n : Int) > toInt32 (toInt32 (8 * 2) * 2) := show (n : Int) > 32 by omega
    unfold roundToPow2
    rw [whileLoop, if_pos (decide_eq_true h8), whileLoop, if_pos (decide_eq_true h16), whileLoop,
      if_pos (decide_eq_true h32)]
    exact hround
  · obtain ⟨m', _, _, _, hdouble'⟩ :=
      @loops_agree n 31 hn 6 (by decide) (by decide)
    exact hdouble'.trans (congrArg some (whileLoop_unique hdouble' hdouble))

theorem roundToPow2_small {r : Int} (hsmall : n ≤ 32) (h : roundToPow2 fuel n = some r) :
    r ≤ 32 := by
  have hinv := whileLoop_inv (I := fun r : Int => r = 8 ∨ r = 16 ∨ r = 32) ?_ (Or.inl rfl) h
  · rcases hinv with rfl | rfl | rfl <;> decide
  · rintro r (rfl | rfl | rfl) htest
    · exact Or.inr (Or.inl rfl)
    · exact Or.inr (Or.inr rfl)
    · have := of_decide_eq_true htest
      omega

/-- The first loop does not end for more than `2 ^ 30`: its variable gets negative, and then it is
zero for ever. -/
theorem roundToPow2_diverges {r : Int} (h : roundToPow2 fuel n = some r) : n ≤ 2 ^ 30 := by
  have hinv := whileLoop_inv
    (I := fun r : Int => r = -2 ^ 31 ∨ r = 0 ∨ ∃ k ≤ 30, r = ((2 ^ k : Nat) : Int))
    ?_ (Or.inr (Or.inr ⟨3, by decide, rfl⟩)) h
  · have htest : decide ((n : Int) > r) = false :=
      @test_of_whileLoop Int (fun r => decide ((n : Int) > r)) _ _ _ _ h
    replace htest := of_decide_eq_false htest
    rcases hinv with rfl | rfl | ⟨k, hk, rfl⟩
    · omega
    · omega
    · have : 2 ^ k ≤ 2 ^ 30 := Nat.pow_le_pow_right (by decide) hk
      omega
  · rintro r (rfl | rfl | ⟨k, hk, rfl⟩) _
    · exact Or.inr (Or.inl (by decide))
    · exact Or.inr (Or.inl (by decide))
    · rcases Nat.lt_or_eq_of_le hk with hlt | rfl
      · exact Or.inr (Or.inr ⟨k + 1, by omega, toInt32_double hlt⟩)
      · exact Or.inl (by decide)

end Rounding

/-! ## Two descriptions -/

/-- Before the `x` there are digits only. -/
theorem dims_inj {a b c d : Nat}
    (h : printInt (a : Int) ++ 'x' :: printInt b = printInt (c : Int) ++ 'x' :: printInt d) :
    a = c ∧ b = d := by
  have hprint : ∀ n : Nat, printInt (n : Int) = Nat.toDigits 10 n := fun _ => rfl
  have htake : ∀ (n : Nat) (l : List Char),
      (Nat.toDigits 10 n ++ 'x' :: l).takeWhile Char.isDigit = Nat.toDigits 10 n := fun n l => by
    rw [List.takeWhile_append_of_pos fun c hc =>
        Nat.isDigit_of_mem_toDigits (by decide) (by decide) hc,
      List.takeWhile_cons_of_neg (by decide), List.append_nil]
  have hinj : ∀ {m n : Nat}, Nat.toDigits 10 m = Nat.toDigits 10 n → m = n := fun {m n} heq => by
    rw [← Nat.ofDigitChars_ten_toDigits (n := m), heq, Nat.ofDigitChars_ten_toDigits]
  rw [hprint, hprint, hprint, hprint] at h
  have hfirst := congrArg (List.takeWhile Char.isDigit) h
  rw [htake, htake] at hfirst
  rw [hfirst] at h
  exact ⟨hinj hfirst, hinj (List.cons.inj (List.append_cancel_left h)).2⟩

theorem description_inj {a b c d : Nat} {format : Int} {name : List Char}
    (hname : textureFormatName format = some name)
    (h : pdpGetTexDescriptionFromParams a b format = pdpGetTexDescriptionFromParams c d format) :
    a = c ∧ b = d := by
  unfold pdpGetTexDescriptionFromParams at h
  simp only [hname, List.append_assoc, List.cons_append] at h
  exact dims_inj (List.cons.inj (List.append_cancel_left (List.append_cancel_left h))).2

/-! ## Requests -/

section Requests

variable {fuel width height : Nat} {format p : Int} {s s₁ : TexturePool} {d : Symbol}

/-- The loop over a fifo with only one free packet returns this one. -/
theorem reuseFrom_waiting {q : Packet} {l : List Int} {s : Pool} (hq : s.pdpPacketHeader p = some q)
    (hunused : q.users = 0) (hdesc : q.desc = some d) (hmem : p ∈ l)
    (hothers : ∀ x ∈ l, x ≠ p → ∃ q, s.pdpPacketHeader x = some q ∧
      (q.users ≠ 0 ∨ ∃ d', q.desc = some d' ∧ pdpTypeDescriptionMatch d' d = false)) :
    ∃ s', reuseFrom d l s = .ok (p, s') ∧ ∀ x, s'.pdpPacketHeader x =
      if x = p then some { q with users := 1 } else s.pdpPacketHeader x := by
  induction l generalizing s with
  | nil => cases hmem
  | cons x l ih =>
      have hrest : ∀ y ∈ l, y ≠ p → _ := fun y hy => hothers y (List.mem_cons_of_mem x hy)
      simp only [reuseFrom, header_setFifo]
      by_cases hx : x = p
      · have hq' : (s.setFifo d l).pdpPacketHeader p = some q := (header_setFifo ..).trans hq
        simp only [hx, hq, hunused, if_true, hdesc, pdpTypeDescriptionMatch_self]
        refine ⟨_, rfl, fun y => ?_⟩
        rw [(puts_of_header hq' _).header, header_setFifo]
      · have hmem' : p ∈ l := (List.mem_cons.mp hmem).resolve_left fun h => hx h.symm
        obtain ⟨q', hq', hbusy⟩ := hothers x List.mem_cons_self hx
        simp only [hq']
        by_cases hused : q'.users = 0
        · obtain ⟨d', hd', hdiffers⟩ := hbusy.resolve_left fun h => h hused
          simp only [hused, if_true, hd', hdiffers, Bool.false_eq_true, if_false]
          have hagain := @ih (pdpPacketSaveNolock x d' (s.setFifo d l)) (by simpa using hq) hmem'
            (by simpa using hrest)
          simpa using hagain
        · simp only [hused, if_false]
          have hagain := @ih (s.setFifo d l) (by simpa using hq) hmem' (by simpa using hrest)
          simpa using hagain

theorem reuse_waiting {s : Pool} (hwaiting : Waiting p d s) :
    ∃ s', pdpPacketReuse (some d) s = .ok (p, s') ∧ (∃ q, s'.pdpPacketHeader p = some q) ∧
      ∀ x, x ≠ p → s'.pdpPacketHeader x = s.pdpPacketHeader x := by
  obtain ⟨q, hq, hunused, hdesc⟩ := hwaiting.header
  obtain ⟨s', hreuse, hheader⟩ :=
    reuseFrom_waiting hq hunused hdesc hwaiting.listed hwaiting.others
  refine ⟨s', hreuse, ⟨_, (hheader p).trans (if_pos rfl)⟩, fun x hx => ?_⟩
  exact (hheader x).trans (if_neg hx)

/-- The packet that was asked for is kept, valid or not. -/
theorem useTexture_keeps {q : Packet} (hq : s.pool.pdpPacketHeader p = some q)
    {w h' : Nat} (hw : doubleUpTo fuel width = some w) (hh : doubleUpTo fuel height = some h') :
    ∃ s', useTexture fuel width height format p s = some (p, s') ∧
      ∀ x, x ≠ p → s'.pool.pdpPacketHeader x = s.pool.pdpPacketHeader x := by
  unfold useTexture
  rw [if_neg (ne_neg_one_of_header hq).symm, hq]
  dsimp only
  split
  · exact ⟨_, rfl, fun _ _ => rfl⟩
  · unfold initTexture
    rw [hw, hh]
    exact ⟨_, rfl, fun x hx => (puts_of_header hq _).other hx⟩

/-- A packet that a request finds in an empty slot is a new one, without a description and
without dimensions. -/
theorem reuseOrCreate_new (h : reuseOrCreate d s = .ok (p, s₁)) (hp : p ≠ -1)
    (hempty : s.pool.pdpPacketHeader p = none) : ∃ data,
      s₁.pool.pdpPacketHeader p = some (.fresh pdpTexture data) ∧
        s₁.pdpTexInfo p = ⟨0, 0, 0, 0, 0, 0⟩ := by
  unfold reuseOrCreate at h
  split at h
  · cases h
  · next r pool hreuse =>
      split at h
      · split at h
        · cases h
        · next r' pool' hcreate =>
            cases h
            rcases pdpPacketCreate_spec hcreate with ⟨hfail, _⟩ | ⟨_, hout⟩
            · exact absurd hfail hp
            · obtain ⟨data, _, hputs⟩ := hout.puts
              exact ⟨data, hputs.self, Function.update_self ..⟩
      · next hr =>
          cases h
          obtain ⟨_, ⟨hfail, _⟩ | ⟨q, _, _, hq, _⟩⟩ := pdpPacketReuse_spec hreuse
          · exact absurd hfail hp
          · rw [hempty] at hq
            cases hq

/-- A request returns the packet that it has got, or none. -/
theorem useTexture_handle {p' : Int} (h : useTexture fuel width height format p s = some (p', s₁))
    (hp : p' ≠ -1) : p' = p := by
  unfold useTexture at h
  split at h
  · cases h
    exact absurd rfl hp
  · split at h
    · cases h
      exact absurd rfl hp
    · dsimp only at h
      split at h
      · cases h
        rfl
      · obtain ⟨_, _, hpair⟩ := Option.map_eq_some_iff.mp h
        cases hpair
        rfl

theorem useTexture_new {data : DataArea} (hwidth : 0 < width)
    (hfresh : s.pool.pdpPacketHeader p = some (.fresh pdpTexture data))
    (hinfo : s.pdpTexInfo p = ⟨0, 0, 0, 0, 0, 0⟩)
    (h : useTexture fuel width height format p s = some (p, s₁)) :
    ∃ w h', doubleUpTo fuel width = some w ∧ doubleUpTo fuel height = some h' ∧
      ∃ q, s₁.pool.pdpPacketHeader p = some q ∧
        q.desc = some (pdpGetTexDescriptionFromParams (toInt32 w) (toInt32 h') format) := by
  have hzero : decide (0 ≥ width) = false := decide_eq_false (by omega)
  unfold useTexture at h
  rw [if_neg (ne_neg_one_of_header hfresh).symm, hfresh] at h
  dsimp only at h
  rw [hinfo, hzero, Bool.and_false, Bool.false_and, Bool.false_and, if_neg Bool.false_ne_true] at h
  obtain ⟨s', hinit, hpair⟩ := Option.map_eq_some_iff.mp h
  cases hpair
  unfold initTexture at hinit
  split at hinit
  · next w h' hw hh =>
      cases hinit
      exact ⟨w, h', hw, hh, _, (puts_of_header hfresh _).self, rfl⟩
  · cases hinit

theorem created_description (hwidth : 0 < width)
    (h : pdpPacketTextureOldOrDummy fuel width height format s = some (.ok (p, s₁)))
    (hp : p ≠ -1) (hempty : s.pool.pdpPacketHeader p = none) :
    ∃ w h', doubleUpTo fuel width = some w ∧ doubleUpTo fuel height = some h' ∧
      ∃ q, s₁.pool.pdpPacketHeader p = some q ∧
        q.desc = some (pdpGetTexDescriptionFromParams (toInt32 w) (toInt32 h') format) := by
  unfold pdpPacketTextureOldOrDummy at h
  split at h
  · cases h
  · split at h
    · cases h
    · next hget =>
        obtain ⟨_, huse, hpair⟩ := Option.map_eq_some_iff.mp h
        cases hpair
        obtain rfl := useTexture_handle huse hp
        obtain ⟨_, hfresh, hinfo⟩ := reuseOrCreate_new hget hp hempty
        exact useTexture_new hwidth hfresh hinfo huse

theorem request_waiting {w h' : Nat} (hw : doubleUpTo fuel width = some w)
    (hh : doubleUpTo fuel height = some h') (hasks : requested fuel width height format = some d)
    (hwaiting : Waiting p d s.pool) :
    ∃ s', pdpPacketTextureOldOrDummy fuel width height format s = some (.ok (p, s')) ∧
      ∀ x, x ≠ p → s'.pool.pdpPacketHeader x = s.pool.pdpPacketHeader x := by
  obtain ⟨pool, hreuse, ⟨q, hq⟩, hothers⟩ := reuse_waiting hwaiting
  obtain ⟨s', huse, hkeeps⟩ :=
    @useTexture_keeps fuel width height format p { s with pool := pool } q hq w h' hw hh
  refine ⟨s', ?_, fun x hx => (hkeeps x hx).trans (hothers x hx)⟩
  unfold pdpPacketTextureOldOrDummy reuseOrCreate
  rw [hasks]
  dsimp only
  rw [hreuse]
  dsimp only
  rw [if_neg (ne_neg_one_of_header hq).symm]
  dsimp only
  rw [huse]
  rfl

/-- What a request for dimensions that can be rounded asks for. -/
theorem requested_eq {a b : Int} (hwidth : width ≤ 2 ^ 30) (hheight : height ≤ 2 ^ 30)
    (hw : roundToPow2 fuel width = some a) (hh : roundToPow2 fuel height = some b) :
    requested fuel width height format = some (pdpGetTexDescriptionFromParams a b format) := by
  unfold requested
  rw [toInt32_of_nat_lt (by omega : width < 2 ^ 31), toInt32_of_nat_lt (by omega : height < 2 ^ 31),
    hw, hh]

/-- A request that asks for something has rounded both dimensions. -/
theorem of_requested (hwidth : width < 2 ^ 31) (hheight : height < 2 ^ 31)
    (h : requested fuel width height format = some d) :
    ∃ a b, roundToPow2 fuel width = some a ∧ roundToPow2 fuel height = some b ∧
      d = pdpGetTexDescriptionFromParams a b format := by
  unfold requested at h
  rw [toInt32_of_nat_lt hwidth, toInt32_of_nat_lt hheight] at h
  split at h
  · next a b hw hh =>
      cases h
      exact ⟨a, b, hw, hh, rfl⟩
  · cases h

/-! ## When the two roundings agree -/

/-- No packets yet, and a heap that does not run out. -/
def noTextures : TexturePool where
  pool := pdpPacketSetup [textureClass] zeroHeap
  pdpTexInfo := fun _ => ⟨0, 0, 0, 0, 0, 0⟩
  glIsTexture := fun _ => false

theorem first_created {w h' : Nat} (hw : doubleUpTo fuel width = some w)
    (hh : doubleUpTo fuel height = some h') (hasks : requested fuel width height format = some d) :
    ∃ s', pdpPacketTextureOldOrDummy fuel width height format noTextures = some (.ok (0, s')) := by
  obtain ⟨s, q, hget, hq⟩ : ∃ s q, reuseOrCreate d noTextures = .ok (0, s) ∧
      s.pool.pdpPacketHeader 0 = some q := ⟨_, _, rfl, rfl⟩
  obtain ⟨s', huse, _⟩ := @useTexture_keeps fuel width height format 0 s q hq w h' hw hh
  refine ⟨s', ?_⟩
  unfold pdpPacketTextureOldOrDummy
  rw [hasks]
  dsimp only
  rw [hget]
  dsimp only
  rw [huse]
  rfl

/-- What it takes for a request to find what was created. -/
theorem of_reusesCreated (hwidth : 0 < width ∧ width < 2 ^ 31)
    (hheight : 0 < height ∧ height < 2 ^ 31) (h : ReusesCreated width height format) :
    width ≤ 2 ^ 30 ∧ height ≤ 2 ^ 30 ∧
      (textureFormatName format = none ∨ 32 < width ∧ 32 < height) := by
  obtain ⟨fuel, d, hasks, hall⟩ := h
  obtain ⟨a, b, ha, hb, rfl⟩ := of_requested hwidth.2 hheight.2 hasks
  have hw := roundToPow2_diverges ha
  have hh := roundToPow2_diverges hb
  refine ⟨hw, hh, ?_⟩
  cases hname : textureFormatName format with
  | none => exact Or.inl rfl
  | some name =>
      obtain ⟨k, _, hk⟩ := roundToPow2_ends hw
      obtain ⟨l, _, hl⟩ := roundToPow2_ends hh
      obtain ⟨m, hm, hm6, hmw⟩ := doubleUpTo_ends hw
      obtain ⟨n, hn, hn6, hnh⟩ := doubleUpTo_ends hh
      obtain rfl := whileLoop_unique ha hk
      obtain rfl := whileLoop_unique hb hl
      -- The first request of all creates a texture with the dimensions of the second rounding.
      obtain ⟨s₁, hfirst⟩ := @first_created 31 width height format _ _ _ hmw hnh
        (requested_eq hw hh hk hl)
      obtain ⟨⟨q, hq, hdesc⟩, _⟩ := hall 31 noTextures 0 s₁ hfirst (by decide) rfl
      obtain ⟨_, _, hmw', hnh', q', hq', hdesc'⟩ :=
        created_description hwidth.1 hfirst (by decide) rfl
      obtain rfl := Option.some.inj (hmw.symm.trans hmw')
      obtain rfl := Option.some.inj (hnh.symm.trans hnh')
      obtain rfl := Option.some.inj (hq.symm.trans hq')
      have hbound : ∀ {i : Nat}, i ≤ 30 → toInt32 ((2 ^ i : Nat) : Int) = ((2 ^ i : Nat) : Int) :=
        fun hi => toInt32_of_nat_lt (Nat.pow_lt_pow_right (by decide) (by omega))
      have hsame := Option.some.inj (hdesc.symm.trans hdesc')
      rw [hbound hm, hbound hn] at hsame
      obtain ⟨hkm, hln⟩ := description_inj hname hsame
      have hm64 : 2 ^ 6 ≤ 2 ^ m := Nat.pow_le_pow_right (by decide) hm6
      have hn64 : 2 ^ 6 ≤ 2 ^ n := Nat.pow_le_pow_right (by decide) hn6
      refine Or.inr ⟨?_, ?_⟩
      · by_contra hsmall
        have hle := roundToPow2_small (Nat.le_of_not_lt hsmall) hk
        omega
      · by_contra hsmall
        have hle := roundToPow2_small (Nat.le_of_not_lt hsmall) hl
        omega

/-- Exactly for these dimensions and formats a request asks for the description that a new
texture gets: no dimension is over `2 ^ 30`, and they are both over 32, or they are not in the
description. -/
theorem reusesCreated_iff (hwidth : 0 < width ∧ width < 2 ^ 31)
    (hheight : 0 < height ∧ height < 2 ^ 31) : ReusesCreated width height format ↔
      width ≤ 2 ^ 30 ∧ height ≤ 2 ^ 30 ∧
        (textureFormatName format = none ∨ 32 < width ∧ 32 < height) := by
  refine ⟨of_reusesCreated hwidth hheight, ?_⟩
  rintro ⟨hw, hh, hlarge⟩
  obtain ⟨k, _, hk⟩ := roundToPow2_ends hw
  obtain ⟨l, _, hl⟩ := roundToPow2_ends hh
  obtain ⟨m, hm, _, hmw⟩ := doubleUpTo_ends hw
  obtain ⟨n, hn, _, hnh⟩ := doubleUpTo_ends hh
  have hasks := @requested_eq _ _ _ format _ _ hw hh hk hl
  refine ⟨31, _, hasks, fun fuel' s p s₁ hcreated hp hempty => ⟨?_, fun s₂ hwaiting => ?_⟩⟩
  · obtain ⟨w, h', hw', hh', q, hq, hdesc⟩ := created_description hwidth.1 hcreated hp hempty
    obtain rfl := whileLoop_unique hw' hmw
    obtain rfl := whileLoop_unique hh' hnh
    refine ⟨q, hq, hdesc.trans (congrArg some ?_)⟩
    rcases hlarge with hunknown | ⟨hw32, hh32⟩
    · unfold pdpGetTexDescriptionFromParams
      rw [hunknown]
    · obtain ⟨i, hi, hround, hdouble⟩ := roundToPow2_large hw hw32
      obtain ⟨j, hj, hround', hdouble'⟩ := roundToPow2_large hh hh32
      have hbound : ∀ {i : Nat}, i ≤ 30 → toInt32 ((2 ^ i : Nat) : Int) = ((2 ^ i : Nat) : Int) :=
        fun hi => toInt32_of_nat_lt (Nat.pow_lt_pow_right (by decide) (by omega))
      rw [whileLoop_unique hmw hdouble, whileLoop_unique hnh hdouble', whileLoop_unique hk hround,
        whileLoop_unique hl hround', hbound hi, hbound hj]
  · exact request_waiting hmw hnh hasks hwaiting

theorem reusesCreated_iff_320_240 : ReusesCreated 320 240 glRgba ↔
    320 ≤ 2 ^ 30 ∧ 240 ≤ 2 ^ 30 ∧ (textureFormatName glRgba = none ∨ 32 < 320 ∧ 32 < 240) :=
  reusesCreated_iff ⟨by decide, by decide⟩ ⟨by decide, by decide⟩

/-- A grey texture of 16 by 16 is created as one of 64 by 64, and asked for as one of 16 by
16. -/
theorem not_reusesCreated : ¬ ∀ (width height : Nat) (format : Int), 0 < width ∧ width < 2 ^ 31 →
    0 < height ∧ height < 2 ^ 31 → ReusesCreated width height format := by
  intro hall
  have hgrey := hall 16 16 glLuminance ⟨by decide, by decide⟩ ⟨by decide, by decide⟩
  obtain ⟨_, _, hunknown | ⟨hlarge, _⟩⟩ :=
    of_reusesCreated ⟨by decide, by decide⟩ ⟨by decide, by decide⟩ hgrey
  · exact absurd hunknown (by decide)
  · exact absurd hlarge (by decide)

/-- The second request makes another texture, although the first one is unused. -/
example : ∃ s₁ s₂, pdpPacketTextureOldOrDummy 31 16 16 glLuminance noTextures =
      some (.ok (0, s₁)) ∧
    pdpPacketTextureOldOrDummy 31 16 16 glLuminance
      { s₁ with pool := pdpPacketMarkUnused 0 s₁.pool } = some (.ok (1, s₂)) :=
  ⟨_, _, rfl, rfl⟩

end Requests

end PureDataPacket
