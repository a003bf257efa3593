/-
# `PureDataPacket.Type.Dispatch` — the planes of two or three images at once

`pdp_imageproc_dispatch_2buf` and `pdp_imageproc_dispatch_3buf` call a routine for each plane
that a channel mask selects.  The planes are those of the first image; that the others have them
as well is for `pdp_packet_image_compat` to say.

| | |
| :-- | :-- |
| `compatSound_iff` | when two compatible images have the same planes |
| `dispatch3buf_iff` | when three images are alike, or nothing happens |

The test does not look at the depth, and the third image is never tested: its condition has the
second one twice.
-/
import Mathlib.Data.Nat.Bitwise
import PureDataPacket.Type.Bounds

namespace PureDataPacket

open Pool

/-! ## Compatible packets -/

/-- `pdp_packet_compat`. -/
def pdpPacketCompat (packet0 packet1 : Int) (s : Pool) : Bool :=
  match s.pdpPacketHeader packet1, s.pdpPacketHeader packet0 with
  | some header1, some header0 => header0.type = header1.type
  | _, _ => false

/-- `pdp_packet_image_compat`. -/
def pdpPacketImageCompat (packet0 packet1 : Int) (s : Pool) : Bool :=
  match s.pdpPacketHeader packet0, s.pdpPacketHeader packet1 with
  | some header0, some header1 =>
      if !pdpPacketCompat packet0 packet1 s then false
      else if header0.type ≠ pdpImage then false
      else if header0.info.encoding ≠ header1.info.encoding then false
      else if header0.info.width ≠ header1.info.width then false
      else if header0.info.height ≠ header1.info.height then false
      else true
  | _, _ => false

/-! ## The dispatchers -/

/-- A call of the process routine: the dimensions, and where the planes are.  A plane begins at
some pixel of the data of a packet. -/
structure ProcessCall where
  width : Nat
  height : Nat
  planes : List (Int × Nat)
deriving DecidableEq

/-- The call for the planes of some packets that begin at `offset`. -/
def ProcessCall.at (packets : List Int) (width height offset : Nat) : ProcessCall :=
  ⟨width, height, packets.map fun packet => (packet, offset)⟩

/-- `if (chanmask & mask)`. -/
def callIf (chanmask mask : Nat) (call : ProcessCall) : List ProcessCall :=
  if chanmask &&& mask ≠ 0 then [call] else []

/-- `while (d--)`, for the planes from `offset` on. -/
def dispatchMulti (packets : List Int) (chanmask w h planeSize : Nat) :
    (d mask offset : Nat) → List ProcessCall
  | 0, _, _ => []
  | d + 1, mask, offset =>
      callIf chanmask mask (.at packets w h offset) ++
        dispatchMulti packets chanmask w h planeSize d (u32 (mask * 2)) (offset + planeSize)

/-- The calls for the planes of `image0`. -/
def dispatchPlanes (packets : List Int) (image0 : Info) (chanmask : Nat) : List ProcessCall :=
  let w := image0.width
  let h := image0.height
  let planeSize := u32 (w * h)
  if image0.encoding = pdpImageGREY then callIf chanmask 1 (.at packets w h 0)
  else if image0.encoding = pdpImageYV12 then
    callIf chanmask 1 (.at packets w h 0) ++
      callIf chanmask 2 (.at packets (w / 2) (h / 2) planeSize) ++
      callIf chanmask 4 (.at packets (w / 2) (h / 2) (planeSize + planeSize / 4))
  else if image0.encoding = pdpImageMCHP then
    dispatchMulti packets chanmask w h planeSize image0.depth 1 0
  else []

/-- What a dispatcher does with compatible images: a channel mask of the first one is used up. -/
def dispatch (packets : List Int) (chanmask : Nat) (packet0 : Int) (s : Pool) :
    List ProcessCall × Pool :=
  match s.pdpPacketHeader packet0 with
  | none => ([], s)
  | some header0 =>
      let image0 := header0.info
      let chanmask := if image0.chanmask ≠ 0 then image0.chanmask else chanmask
      (dispatchPlanes packets image0 chanmask,
        s.put packet0 (some { header0 with info := { image0 with chanmask := 0 } }))

/-- `pdp_imageproc_dispatch_2buf`. -/
def pdpImageprocDispatch2buf (chanmask : Nat) (packet0 packet1 : Int) (s : Pool) :
    List ProcessCall × Pool :=
  if !pdpPacketImageCompat packet0 packet1 s then ([], s)
  else dispatch [packet0, packet1] chanmask packet0 s

/-- `pdp_imageproc_dispatch_3buf`. -/
def pdpImageprocDispatch3buf (chanmask : Nat) (packet0 packet1 packet2 : Int) (s : Pool) :
    List ProcessCall × Pool :=
  if !(pdpPacketImageCompat packet0 packet1 s && pdpPacketImageCompat packet0 packet1 s) then
    ([], s)
  else dispatch [packet0, packet1, packet2] chanmask packet0 s

/-! ## Planes -/

/-- The number of planes of an image. -/
def planeCount (image : Info) : Nat :=
  if image.encoding = pdpImageGREY then 1
  else if image.encoding = pdpImageYV12 then 3
  else if image.encoding = pdpImageMCHP then image.depth
  else 0

/-- The call for plane `j`. -/
def planeCall (packets : List Int) (image : Info) (j : Nat) : ProcessCall :=
  let size := u32 (image.width * image.height)
  if image.encoding = pdpImageYV12 ∧ 0 < j then
    .at packets (image.width / 2) (image.height / 2) (size + size / 4 * (j - 1))
  else .at packets image.width image.height (size * j)

section Planes

variable {packets : List Int} {chanmask w h planeSize d i : Nat} {c : ProcessCall} {image : Info}

theorem mem_callIf {mask : Nat} {call : ProcessCall} :
    c ∈ callIf chanmask mask call ↔ chanmask &&& mask ≠ 0 ∧ c = call := by
  unfold callIf
  split
  · next hmask => simp only [List.mem_singleton, hmask, ne_eq, not_false_eq_true, true_and]
  · next hmask => simp only [List.not_mem_nil, hmask, false_and]

theorem land_two_pow : chanmask &&& 2 ^ i ≠ 0 ↔ chanmask.testBit i = true := by
  rw [Nat.and_two_pow]
  cases chanmask.testBit i with
  | true => simp
  | false => simp

/-- A mask has 32 bits, and shifted out of them it selects nothing. -/
theorem land_u32_two_pow : chanmask &&& u32 (2 ^ i) ≠ 0 ↔ i < 32 ∧ chanmask.testBit i = true := by
  unfold u32
  rcases Nat.lt_or_ge i 32 with hi | hi
  · rw [Nat.mod_eq_of_lt (Nat.pow_lt_pow_right (by decide) hi), land_two_pow]
    exact (and_iff_right hi).symm
  · rw [Nat.mod_eq_zero_of_dvd (Nat.pow_dvd_pow 2 hi), Nat.and_zero]
    exact iff_of_false (fun h => h rfl) fun h => absurd h.1 (by omega)

theorem mem_dispatchMulti :
    c ∈ dispatchMulti packets chanmask w h planeSize d (u32 (2 ^ i)) (planeSize * i) ↔
      ∃ j, i ≤ j ∧ j < i + d ∧ j < 32 ∧ chanmask.testBit j = true ∧
        c = .at packets w h (planeSize * j) := by
  induction d generalizing i with
  | zero =>
      refine iff_of_false (List.not_mem_nil) ?_
      rintro ⟨j, h0, h1, _⟩
      omega
  | succ d ih =>
      have hmask : u32 (u32 (2 ^ i) * 2) = u32 (2 ^ (i + 1)) := by
        unfold u32
        rw [Nat.pow_succ 2 i, Nat.mod_mul_mod]
      have hoffset : planeSize * i + planeSize = planeSize * (i + 1) := (Nat.mul_succ _ _).symm
      rw [dispatchMulti, List.mem_append, mem_callIf, hmask, hoffset, ih, land_u32_two_pow]
      constructor
      · rintro (⟨⟨hi, hbit⟩, rfl⟩ | ⟨j, h0, h1, hj, hbit, rfl⟩)
        · exact ⟨i, by omega, by omega, hi, hbit, rfl⟩
        · exact ⟨j, by omega, by omega, hj, hbit, rfl⟩
      · rintro ⟨j, h0, h1, hj, hbit, rfl⟩
        rcases Nat.eq_or_lt_of_le h0 with rfl | hlt
        · exact Or.inl ⟨⟨hj, hbit⟩, rfl⟩
        · exact Or.inr ⟨j, by omega, by omega, hj, hbit, rfl⟩

/-- A plane is called for if its bit is set, and if it is one of the first 32. -/
theorem mem_dispatchPlanes : c ∈ dispatchPlanes packets image chanmask ↔
    ∃ j < planeCount image, j < 32 ∧ chanmask.testBit j = true ∧ c = planeCall packets image j := by
  have h1 : chanmask &&& 1 ≠ 0 ↔ chanmask.testBit 0 = true := @land_two_pow chanmask 0
  have h2 : chanmask &&& 2 ≠ 0 ↔ chanmask.testBit 1 = true := @land_two_pow chanmask 1
  have h4 : chanmask &&& 4 ≠ 0 ↔ chanmask.testBit 2 = true := @land_two_pow chanmask 2
  have hyv12 : pdpImageYV12 ≠ pdpImageGREY := by decide
  have hmchp : pdpImageMCHP ≠ pdpImageGREY ∧ pdpImageMCHP ≠ pdpImageYV12 := by decide
  unfold dispatchPlanes planeCount planeCall
  by_cases hg : image.encoding = pdpImageGREY
  · have hne : image.encoding ≠ pdpImageYV12 := fun h => hyv12 (h.symm.trans hg)
    simp only [hg, if_true, mem_callIf, h1]
    constructor
    · rintro ⟨hbit, rfl⟩
      refine ⟨0, by decide, by decide, hbit, ?_⟩
      rw [if_neg fun h => absurd h.2 (by decide), Nat.mul_zero]
    · rintro ⟨j, hj, _, hbit, rfl⟩
      obtain rfl : j = 0 := by omega
      refine ⟨hbit, ?_⟩
      rw [if_neg fun h => absurd h.2 (by decide), Nat.mul_zero]
  · by_cases hy : image.encoding = pdpImageYV12
    · simp only [hy, hyv12, if_false, if_true, List.mem_append, mem_callIf, h1, h2, h4, true_and]
      constructor
      · rintro ((⟨hbit, rfl⟩ | ⟨hbit, rfl⟩) | ⟨hbit, rfl⟩)
        · exact ⟨0, by decide, by decide, hbit, by rw [if_neg (by decide), Nat.mul_zero]⟩
        · exact ⟨1, by decide, by decide, hbit, by
            rw [if_pos (by decide), Nat.sub_self, Nat.mul_zero, Nat.add_zero]⟩
        · exact ⟨2, by decide, by decide, hbit, by rw [if_pos (by decide), Nat.mul_one]⟩
      · rintro ⟨j, hj, _, hbit, rfl⟩
        have hcases : j = 0 ∨ j = 1 ∨ j = 2 := by omega
        rcases hcases with rfl | rfl | rfl
        · exact Or.inl (Or.inl ⟨hbit, by rw [if_neg (by decide), Nat.mul_zero]⟩)
        · exact Or.inl (Or.inr ⟨hbit, by
            rw [if_pos (by decide), Nat.sub_self, Nat.mul_zero, Nat.add_zero]⟩)
        · exact Or.inr ⟨hbit, by rw [if_pos (by decide), Nat.mul_one]⟩
    · by_cases hm : image.encoding = pdpImageMCHP
      · have hall := @mem_dispatchMulti packets chanmask image.width image.height
          (u32 (image.width * image.height)) image.depth 0 c
        have hone : u32 (2 ^ 0) = 1 := rfl
        rw [hone, Nat.mul_zero, Nat.zero_add] at hall
        simp only [hm, hmchp.1, hmchp.2, if_false, if_true, false_and, hall, Nat.zero_le, true_and]
      · simp only [hg, hy, hm, if_false, List.not_mem_nil, Nat.not_lt_zero, false_and, exists_false]

theorem dispatchPlanes_eq_nil : dispatchPlanes packets image chanmask = [] ↔
    ∀ j < planeCount image, j < 32 → chanmask.testBit j = false := by
  rw [List.eq_nil_iff_forall_not_mem]
  constructor
  · intro h j hj hlt
    by_contra hbit
    exact h _ (mem_dispatchPlanes.mpr ⟨j, hj, hlt, by simpa using hbit, rfl⟩)
  · intro h c hc
    obtain ⟨j, hj, hlt, hbit, _⟩ := mem_dispatchPlanes.mp hc
    rw [h j hj hlt] at hbit
    cases hbit

end Planes

/-! ## What the test says -/

/-- Two images with the same encoding and dimensions. -/
structure Compat (a b : Packet) : Prop where
  type : a.type = pdpImage ∧ b.type = pdpImage
  encoding : a.info.encoding = b.info.encoding
  width : a.info.width = b.info.width
  height : a.info.height = b.info.height

section Compat

variable {s : Pool} {packet0 packet1 : Int}

theorem pdpPacketImageCompat_iff : pdpPacketImageCompat packet0 packet1 s = true ↔
    ∃ a b, s.pdpPacketHeader packet0 = some a ∧ s.pdpPacketHeader packet1 = some b ∧
      Compat a b := by
  unfold pdpPacketImageCompat pdpPacketCompat
  cases h0 : s.pdpPacketHeader packet0 with
  | none => exact iff_of_false Bool.false_ne_true fun ⟨_, _, h, _⟩ => by cases h
  | some a =>
      cases h1 : s.pdpPacketHeader packet1 with
      | none => exact iff_of_false Bool.false_ne_true fun ⟨_, _, _, h, _⟩ => by cases h
      | some b =>
          simp only [Option.some.injEq, exists_and_left, exists_eq_left', Bool.not_eq_true',
            decide_eq_false_iff_not, ite_not]
          split_ifs with htype himage hencoding hwidth hheight
          · exact iff_of_true rfl ⟨⟨himage, htype ▸ himage⟩, hencoding, hwidth, hheight⟩
          · exact iff_of_false id fun h => hheight h.height
          · exact iff_of_false id fun h => hwidth h.width
          · exact iff_of_false id fun h => hencoding h.encoding
          · exact iff_of_false id fun h => himage h.type.1
          · exact iff_of_false id fun h => htype (h.type.1.trans h.type.2.symm)

end Compat

/-! ## Three images -/

/-- Three images with the same encoding, dimensions and number of planes. -/
def AllAlike (packet0 packet1 packet2 : Int) (s : Pool) : Prop :=
  ∃ a b c, s.pdpPacketHeader packet0 = some a ∧ s.pdpPacketHeader packet1 = some b ∧
    s.pdpPacketHeader packet2 = some c ∧ Compat a b ∧ Compat a c ∧
    planeCount a.info = planeCount b.info ∧ planeCount a.info = planeCount c.info

/-- The first packet has no channel mask of its own, and the argument selects none of its
planes. -/
def SelectsNone (chanmask : Nat) (packet0 : Int) (s : Pool) : Prop :=
  ∃ a, s.pdpPacketHeader packet0 = some a ∧ a.info.chanmask = 0 ∧
    ∀ j < planeCount a.info, j < 32 → chanmask.testBit j = false

section Three

variable {s : Pool} {packet0 packet1 packet2 : Int} {chanmask : Nat} {packets : List Int}

theorem put_same {a : Packet} (h : s.pdpPacketHeader packet0 = some a) :
    s.put packet0 (some a) = s := by
  have hlt := lt_of_header h
  have hlen : packet0.toNat < s.pdpPool.length := by
    unfold Pool.pdpPoolSize at hlt
    omega
  unfold Pool.pdpPacketHeader at h
  rw [if_pos hlt, List.getD_eq_getElem _ _ hlen] at h
  unfold Pool.put
  rw [← h]
  cases s
  simp only [List.set_getElem_self]

/-- No call is made, and no channel mask is used up. -/
theorem dispatch_eq_nothing {a : Packet} (h : s.pdpPacketHeader packet0 = some a) :
    dispatch packets chanmask packet0 s = ([], s) ↔ SelectsNone chanmask packet0 s := by
  unfold dispatch
  rw [h]
  dsimp only
  constructor
  · intro heq
    obtain ⟨hcalls, hpool⟩ := Prod.mk.inj heq
    have hheader := (puts_of_header h (some { a with info := { a.info with chanmask := 0 } })).self
    rw [hpool, h] at hheader
    have hmask : a.info.chanmask = 0 :=
      congrArg (fun q => q.info.chanmask) (Option.some.inj hheader)
    rw [if_neg (fun hne => hne hmask)] at hcalls
    exact ⟨a, h, hmask, dispatchPlanes_eq_nil.mp hcalls⟩
  · rintro ⟨a', h', hmask, hnone⟩
    obtain rfl := Option.some.inj (h.symm.trans h')
    have hsame : { a with info := { a.info with chanmask := 0 } } = a := by
      rw [← hmask]
    rw [if_neg (fun hne => hne hmask), hsame, put_same h, dispatchPlanes_eq_nil.mpr hnone]

/-- When the dispatcher of three images does nothing unless they are alike: the first two must
be incompatible, or there must be nothing to do. -/
theorem dispatch3buf_iff : (AllAlike packet0 packet1 packet2 s ∨
      pdpImageprocDispatch3buf chanmask packet0 packet1 packet2 s = ([], s)) ↔
    (AllAlike packet0 packet1 packet2 s ∨ pdpPacketImageCompat packet0 packet1 s = false ∨
      SelectsNone chanmask packet0 s) := by
  refine or_congr_right ?_
  unfold pdpImageprocDispatch3buf
  rw [Bool.and_self]
  cases hcompat : pdpPacketImageCompat packet0 packet1 s with
  | false => exact iff_of_true rfl (Or.inl rfl)
  | true =>
      obtain ⟨a, b, h0, _, _⟩ := pdpPacketImageCompat_iff.mp hcompat
      rw [Bool.not_true, if_neg Bool.false_ne_true, dispatch_eq_nothing h0]
      exact ⟨Or.inr, fun h => h.resolve_left Bool.true_eq_false.mp⟩

def pair (p q : Packet) : Pool where
  pdpPool := [some p, some q]
  reusefifo := fun _ => []
  classList := []
  malloc := fun _ => none
  mallocs := 0
  size_pos := Nat.succ_pos 1

/-- A grey image of one pixel. -/
def greyPixel : Packet := ⟨PacketKind.imageGrey.header 1 1 0, 1, ⟨[0, 0], by decide⟩⟩

/-- The third packet is missing, and the first two are processed together with it. -/
theorem not_dispatch3buf : ¬ (AllAlike 0 1 (-1) (pair greyPixel greyPixel) ∨
    pdpImageprocDispatch3buf 1 0 1 (-1) (pair greyPixel greyPixel) =
      ([], pair greyPixel greyPixel)) := by
  rintro (⟨a, b, c, _, _, hc, _⟩ | hnothing)
  · rw [header_neg_one] at hc
    cases hc
  · have hcalls : (pdpImageprocDispatch3buf 1 0 1 (-1) (pair greyPixel greyPixel)).1 ≠ [] := by
      decide
    exact hcalls (congrArg Prod.fst hnothing)

end Three

/-! ## Two images -/

/-- The planes of a call are inside the data of their packets. -/
def ProcessCall.Inside (c : ProcessCall) (s : Pool) : Prop :=
  ∀ plane ∈ c.planes, ∃ p, s.pdpPacketHeader plane.1 = some p ∧
    2 * (plane.2 + c.width * c.height) ≤ p.data.size

/-- The packet with another channel mask. -/
def Packet.withChanmask (p : Packet) (m : Nat) : Packet :=
  { p with info := { p.info with chanmask := m } }

/-- If the test accepts two packets, all planes that the dispatcher passes on are inside both of
them, whatever the channel masks. -/
def CompatSound (p q : Packet) : Prop :=
  ∀ s packet0 packet1 m chanmask, s.pdpPacketHeader packet0 = some (p.withChanmask m) →
    s.pdpPacketHeader packet1 = some q → pdpPacketImageCompat packet0 packet1 s = true →
      ∀ c ∈ (pdpImageprocDispatch2buf chanmask packet0 packet1 s).1, c.Inside s

/-- The sizes of two images of one kind have room for the planes of the first one.  The mask has
bits for 32 planes. -/
def PlanesFit (k : PacketKind) (w h d d' : Nat) : Prop :=
  match k with
  | .imageMulti => 2 * (min d 32 * (w * h)) ≤ imageSizeMchp w h d ∧
      2 * (min d 32 * (w * h)) ≤ imageSizeMchp w h d'
  | _ => w * h < 2 ^ 30

section Two

variable {k : PacketKind} {w h d d' n : Nat} {p q : Packet} {s : Pool} {packet0 packet1 : Int}

/-- Where plane `j` ends. -/
def planeEnd (image : Info) (j : Nat) : Nat :=
  let size := u32 (image.width * image.height)
  if image.encoding = pdpImageYV12 ∧ 0 < j then
    size + size / 4 * (j - 1) + image.width / 2 * (image.height / 2)
  else size * j + image.width * image.height

theorem inside_planeCall {packets : List Int} {image : Info} {j : Nat} :
    (planeCall packets image j).Inside s ↔ ∀ packet ∈ packets, ∃ p,
      s.pdpPacketHeader packet = some p ∧ 2 * planeEnd image j ≤ p.data.size := by
  unfold planeCall planeEnd ProcessCall.Inside
  dsimp only
  split
  · exact List.forall_mem_map
  · exact List.forall_mem_map

theorem compatSound_iff_planes : CompatSound p q ↔ (Compat p q → ∀ j < planeCount p.info, j < 32 →
    2 * planeEnd p.info j ≤ p.data.size ∧ 2 * planeEnd p.info j ≤ q.data.size) := by
  constructor
  · intro hsound hcompat j hj hlt
    have h0 : (pair (p.withChanmask 0) q).pdpPacketHeader 0 = some (p.withChanmask 0) := rfl
    have h1 : (pair (p.withChanmask 0) q).pdpPacketHeader 1 = some q := rfl
    have hall : pdpPacketImageCompat 0 1 (pair (p.withChanmask 0) q) = true :=
      pdpPacketImageCompat_iff.mpr
        ⟨_, _, h0, h1, hcompat.type, hcompat.encoding, hcompat.width, hcompat.height⟩
    have hbit : (2 ^ 32 - 1).testBit j = true := by
      rw [Nat.testBit_two_pow_sub_one]
      exact decide_eq_true hlt
    have hcall : planeCall [0, 1] p.info j ∈
        (pdpImageprocDispatch2buf (2 ^ 32 - 1) 0 1 (pair (p.withChanmask 0) q)).1 := by
      unfold pdpImageprocDispatch2buf dispatch
      rw [hall, Bool.not_true, if_neg Bool.false_ne_true, h0]
      exact mem_dispatchPlanes.mpr ⟨j, hj, hlt, hbit, rfl⟩
    have hinside := inside_planeCall.mp (hsound _ 0 1 0 (2 ^ 32 - 1) h0 h1 hall _ hcall)
    obtain ⟨p', hp', hfirst⟩ := hinside 0 (by decide)
    obtain ⟨q', hq', hsecond⟩ := hinside 1 (by decide)
    obtain rfl := Option.some.inj (h0.symm.trans hp')
    obtain rfl := Option.some.inj (h1.symm.trans hq')
    exact ⟨hfirst, hsecond⟩
  · intro hplanes s packet0 packet1 m chanmask h0 h1 hall c hc
    obtain ⟨p', q', h0', h1', hcompat⟩ := pdpPacketImageCompat_iff.mp hall
    obtain rfl := Option.some.inj (h0.symm.trans h0')
    obtain rfl := Option.some.inj (h1.symm.trans h1')
    unfold pdpImageprocDispatch2buf dispatch at hc
    rw [hall, Bool.not_true, if_neg Bool.false_ne_true, h0] at hc
    obtain ⟨j, hj, hlt, _, rfl⟩ := mem_dispatchPlanes.mp hc
    obtain ⟨hfirst, hsecond⟩ := hplanes
      ⟨hcompat.type, hcompat.encoding, hcompat.width, hcompat.height⟩ j hj hlt
    refine inside_planeCall.mpr fun packet hpacket => ?_
    simp only [List.mem_cons, List.not_mem_nil, or_false] at hpacket
    rcases hpacket with rfl | rfl
    · exact ⟨_, h0, hfirst⟩
    · exact ⟨_, h1, hsecond⟩

/-! ## Sizes -/

theorem half_mul_half (w h : Nat) : 4 * (w / 2 * (h / 2)) ≤ w * h := by
  have hle := Nat.mul_le_mul (Nat.mul_div_le w 2) (Nat.mul_div_le h 2)
  calc 4 * (w / 2 * (h / 2)) = 2 * (w / 2) * (2 * (h / 2)) := by ring
    _ ≤ w * h := hle

theorem Built.planeEnd (hp : Built k w h d p) (j : Nat) : planeEnd p.info j =
    if k.encoding = pdpImageYV12 ∧ 0 < j then
      u32 (w * h) + u32 (w * h) / 4 * (j - 1) + w / 2 * (h / 2)
    else u32 (w * h) * j + w * h := by
  unfold PureDataPacket.planeEnd
  rw [hp.encoding, hp.width, hp.height]

theorem Built.data_lt (hp : Built k w h d p) : k.dataSize w h d + pdpHeaderSize < 2 ^ 31 :=
  hp.size ▸ p.data.size_lt

theorem planes_grey (hp : Built .imageGrey w h d p) (hq : Built .imageGrey w h d' q) :
    (∀ j < planeCount p.info, j < 32 →
      2 * planeEnd p.info j ≤ p.data.size ∧ 2 * planeEnd p.info j ≤ q.data.size) ↔
        w * h < 2 ^ 30 := by
  have hcount : planeCount p.info = 1 := by
    unfold planeCount
    rw [hp.encoding]
    rfl
  have hend : planeEnd p.info 0 = w * h := by
    rw [hp.planeEnd, if_neg (by decide), Nat.mul_zero, Nat.zero_add]
  have hlt := hp.data_lt
  have hsize : ∀ d, PacketKind.imageGrey.dataSize w h d = u32 (u32 (w * h) * 2) := fun _ => rfl
  rw [hcount, hp.size, hq.size]
  simp only [hsize, u32] at *
  constructor
  · intro hall
    have h0 := (hall 0 (by decide) (by decide)).1
    rw [hend] at h0
    omega
  · intro harea j hj _
    obtain rfl : j = 0 := by omega
    rw [hend]
    omega

theorem planes_YCrCb (hp : Built .imageYCrCb w h d p) (hq : Built .imageYCrCb w h d' q) :
    (∀ j < planeCount p.info, j < 32 →
      2 * planeEnd p.info j ≤ p.data.size ∧ 2 * planeEnd p.info j ≤ q.data.size) ↔
        w * h < 2 ^ 30 := by
  have hcount : planeCount p.info = 3 := by
    unfold planeCount
    rw [hp.encoding]
    rfl
  have hend := hp.planeEnd
  have hluma : planeEnd p.info 0 = w * h := by
    rw [hend, if_neg (by decide), Nat.mul_zero, Nat.zero_add]
  have hlt := hp.data_lt
  rw [hcount, hp.size, hq.size]
  constructor
  · intro hall
    have h0 := (hall 0 (by decide) (by decide)).1
    rw [hluma] at h0
    unfold PacketKind.dataSize imageSizeYCrCb u32 pdpHeaderSize at *
    omega
  · intro harea j hj _
    have hquarter := half_mul_half w h
    have harea' : u32 (w * h) = w * h := u32_eq_self (by omega)
    have hsize : PacketKind.imageYCrCb.dataSize w h d = 2 * (w * h + w * h / 2) := by
      show u32 (u32 (u32 (w * h) + u32 (w * h) / 2) * 2) = _
      rw [harea', u32_eq_self (show w * h + w * h / 2 < 2 ^ 32 by omega), u32_eq_self (by omega),
        Nat.mul_comm]
    have hsize' : PacketKind.imageYCrCb.dataSize w h d' = 2 * (w * h + w * h / 2) := hsize
    have hcases : j = 0 ∨ j = 1 ∨ j = 2 := by omega
    rw [hsize, hsize']
    rcases hcases with rfl | rfl | rfl
    · rw [hluma]
      omega
    · rw [hend, if_pos ⟨rfl, by decide⟩, harea']
      omega
    · rw [hend, if_pos ⟨rfl, by decide⟩, harea']
      omega

theorem planes_multi (hp : Built .imageMulti w h d p) (hq : Built .imageMulti w h d' q) :
    (∀ j < planeCount p.info, j < 32 →
      2 * planeEnd p.info j ≤ p.data.size ∧ 2 * planeEnd p.info j ≤ q.data.size) ↔
        PlanesFit .imageMulti w h d d' := by
  have hcount : planeCount p.info = d := by
    unfold planeCount
    rw [hp.encoding, hp.depth rfl]
    rfl
  have hend : ∀ j, planeEnd p.info j = u32 (w * h) * j + w * h := fun j => by
    rw [hp.planeEnd, if_neg fun h => absurd h.1 (by decide)]
  have hlt := hp.data_lt
  rw [hcount, hp.size, hq.size]
  show _ ↔ 2 * (min d 32 * (w * h)) ≤ PacketKind.imageMulti.dataSize w h d ∧
    2 * (min d 32 * (w * h)) ≤ PacketKind.imageMulti.dataSize w h d'
  constructor
  · intro hall
    rcases Nat.eq_zero_or_pos (min d 32) with h0 | hpos
    · rw [h0, Nat.zero_mul]
      exact ⟨Nat.zero_le _, Nat.zero_le _⟩
    · -- The last of the planes.
      have hlast := hall (min d 32 - 1) (by omega) (by omega)
      have hfirst := (hall 0 (by omega) (by decide)).1
      rw [hend, Nat.mul_zero, Nat.zero_add] at hfirst
      have harea : u32 (w * h) = w * h := u32_eq_self (by omega)
      have hmul : w * h * (min d 32 - 1) + w * h = min d 32 * (w * h) := by
        rw [← Nat.mul_succ, Nat.succ_eq_add_one, Nat.sub_add_cancel hpos, Nat.mul_comm]
      rwa [hend, harea, hmul] at hlast
  · rintro ⟨hfirst, hsecond⟩ j hj hlt32
    have hle : (j + 1) * (w * h) ≤ min d 32 * (w * h) := Nat.mul_le_mul_right _ (by omega)
    rw [Nat.succ_mul] at hle
    have harea : u32 (w * h) = w * h := u32_eq_self (by omega)
    rw [hend, harea, Nat.mul_comm (w * h)]
    omega

theorem compat_iff {k' : PacketKind} {w' h' : Nat} (hk : k.type = pdpImage)
    (hk' : k'.type = pdpImage) (hp : Built k w h d p) (hq : Built k' w' h' d' q) :
    Compat p q ↔ k = k' ∧ w = w' ∧ h = h' := by
  constructor
  · intro hcompat
    have hencoding := hcompat.encoding
    have hwidth := hcompat.width
    have hheight := hcompat.height
    rw [hp.encoding, hq.encoding] at hencoding
    rw [hp.width, hq.width] at hwidth
    rw [hp.height, hq.height] at hheight
    refine ⟨?_, hwidth, hheight⟩
    cases k <;> cases k' <;> first
      | rfl
      | exact absurd hk (by decide)
      | exact absurd hk' (by decide)
      | exact absurd hencoding (by decide)
  · rintro ⟨rfl, rfl, rfl⟩
    exact ⟨⟨hp.type.trans hk, hq.type.trans hk⟩, hp.encoding.trans hq.encoding.symm,
      hp.width.trans hq.width.symm, hp.height.trans hq.height.symm⟩

/-- When the test is enough for the planes: their depths may not differ by too much. -/
theorem compatSound_iff {k' : PacketKind} {w' h' : Nat} (hk : k.type = pdpImage)
    (hk' : k'.type = pdpImage) (hp : Built k w h d p) (hq : Built k' w' h' d' q) :
    CompatSound p q ↔ (k = k' ∧ w = w' ∧ h = h' → PlanesFit k w h d d') := by
  rw [compatSound_iff_planes, compat_iff hk hk' hp hq]
  refine imp_congr_right ?_
  rintro ⟨rfl, rfl, rfl⟩
  cases k with
  | imageYCrCb => exact planes_YCrCb hp hq
  | imageGrey => exact planes_grey hp hq
  | imageMulti => exact planes_multi hp hq
  | bitmapYv12 => cases hk
  | bitmapI420 => cases hk
  | bitmapGrey => cases hk
  | bitmapRgb => cases hk
  | bitmapRgba => cases hk

/-- A multi-channel image of one pixel. -/
def multiPixel (d : Nat) (data : DataArea) : Packet :=
  ⟨PacketKind.imageMulti.header 1 1 d, 1, data⟩

def twoPlanes : Packet := multiPixel 2 ⟨[0, 0, 0, 0], by decide⟩

def onePlane : Packet := multiPixel 1 ⟨[0, 0], by decide⟩

theorem compatSound_iff_planes_2_1 : CompatSound twoPlanes onePlane ↔
    (PacketKind.imageMulti = .imageMulti ∧ 1 = 1 ∧ 1 = 1 → PlanesFit .imageMulti 1 1 2 1) :=
  compatSound_iff rfl rfl (built_header (by decide) (by decide) (by decide) rfl)
    (built_header (by decide) (by decide) (by decide) rfl)

/-- The second plane of the first packet is not one of the second packet. -/
theorem not_compatSound : ¬ CompatSound twoPlanes onePlane := by
  intro hsound
  have hinside := hsound (pair twoPlanes onePlane) 0 1 0 2 rfl rfl (by decide)
    ⟨1, 1, [(0, 1), (1, 1)]⟩ (by decide)
  obtain ⟨p, hp, hle⟩ := hinside (1, 1) (by decide)
  obtain rfl := Option.some.inj ((show _ = some onePlane from rfl).symm.trans hp)
  exact absurd hle (by decide)

end Two

end PureDataPacket
