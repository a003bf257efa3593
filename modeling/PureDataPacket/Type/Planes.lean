/-
# `PureDataPacket.Type.Planes` — one image at a time, and several dispatches for it

`pdp_imageproc_dispatch_1buf` calls a routine for the planes of one image that a channel mask
selects.  A mask is one word, and the bit for a plane is a 1 that is shifted once for each plane
before it.  The mask of the packet, if it has one, goes before the mask of the caller, and it is
used up: a second dispatch for the same packet sees the mask of the caller.

| | |
| :-- | :-- |
| `dispatchRight_iff` | each selected plane once, and -1 selects them all |
| `convRight_iff` | the vertical and the horizontal pass go over the same planes |
| `constantRight_iff` | a plane is constant if it is selected, and zero if not |

`pdp_constant` makes its second dispatch with the complement of its mask, for a packet that it
has just got from a constructor: the mask of that packet is zero.
-/
import PureDataPacket.Lib.Bytes
import PureDataPacket.Type.Dispatch

namespace PureDataPacket

open Pool

/-! ## One buffer -/

/-- `pdp_imageproc_dispatch_1buf`. -/
def pdpImageprocDispatch1buf (chanmask : Nat) (packet0 : Int) (s : Pool) :
    List ProcessCall × Pool :=
  match s.pdpPacketHeader packet0 with
  | none => ([], s)
  | some header0 =>
      if !pdpPacketImageIsvalid header0 then ([], s) else dispatch [packet0] chanmask packet0 s

/-- The mask that counts: that of the packet, if it has one. -/
def effectiveMask (image : Info) (chanmask : Nat) : Nat :=
  if image.chanmask ≠ 0 then image.chanmask else chanmask

/-- `-1` as a mask. -/
def allChannels : Nat := 2 ^ 32 - 1

/-- What a mask says about a plane: it has one of 32 bits for it, or it says that all planes are
meant. -/
def Selects (mask j : Nat) : Bool :=
  decide (mask = allChannels) || (decide (j < 32) && mask.testBit j)

/-- The calls of the dispatcher, of a valid image, are those for the planes that are selected,
each of them once. -/
def DispatchRight (chanmask : Nat) (packet0 : Int) (s : Pool) : Prop :=
  ∀ p, s.pdpPacketHeader packet0 = some p → pdpPacketImageIsvalid p = true →
    (pdpImageprocDispatch1buf chanmask packet0 s).1 =
      ((List.range (planeCount p.info)).filter (Selects (effectiveMask p.info chanmask))).map
        (planeCall [packet0] p.info)

/-- Not all planes are asked for, or there is a bit for each of them. -/
def BitForEach (chanmask : Nat) (packet0 : Int) (s : Pool) : Prop :=
  ∀ p, s.pdpPacketHeader packet0 = some p → pdpPacketImageIsvalid p = true →
    effectiveMask p.info chanmask = allChannels → planeCount p.info ≤ 32

/-! ## Convolution -/

/-- What `pdp_conv_process` reads of the object, the convolvers and the number of passes aside. -/
structure Conv where
  xVertical : Bool
  xHorizontal : Bool
  bChannelMask : Nat
deriving DecidableEq

/-- `pdp_conv_process`: the calls of the vertical pass, and those of the horizontal pass. -/
def pdpConvProcess (x : Conv) (p : Int) (s : Pool) :
    (List ProcessCall × List ProcessCall) × Pool :=
  let mask := x.bChannelMask
  let (vertical, s) := if x.xVertical then pdpImageprocDispatch1buf mask p s else ([], s)
  let (horizontal, s) := if x.xHorizontal then pdpImageprocDispatch1buf mask p s else ([], s)
  ((vertical, horizontal), s)

/-- A mask calls for this plane. -/
def CallsFor (p : Int) (image : Info) (mask : Nat) (c : ProcessCall) : Prop :=
  ∃ j < planeCount image, j < 32 ∧ mask.testBit j = true ∧ c = planeCall [p] image j

/-- Each pass that is switched on goes over the planes of the mask that counts. -/
def ConvRight (x : Conv) (p : Int) (s : Pool) : Prop :=
  ∀ q, s.pdpPacketHeader p = some q → pdpPacketImageIsvalid q = true →
    (x.xVertical = true → ∀ c, c ∈ (pdpConvProcess x p s).1.1 ↔
      CallsFor p q.info (effectiveMask q.info x.bChannelMask) c) ∧
    (x.xHorizontal = true → ∀ c, c ∈ (pdpConvProcess x p s).1.2 ↔
      CallsFor p q.info (effectiveMask q.info x.bChannelMask) c)

/-- One of the passes is off, or the packet has no mask, or its mask is as good as that of the
object. -/
def OneMask (x : Conv) (p : Int) (s : Pool) : Prop :=
  ∀ q, s.pdpPacketHeader p = some q → pdpPacketImageIsvalid q = true →
    x.xVertical = true → x.xHorizontal = true → q.info.chanmask ≠ 0 →
      ∀ c, CallsFor p q.info x.bChannelMask c ↔ CallsFor p q.info q.info.chanmask c

/-! ## Constant images -/

/-- `pdp_imageproc_legalwidth` and `pdp_imageproc_legalheight`. -/
def pdpImageprocLegalwidth (i : Int) : Nat :=
  if i > 0 then ofInt32 (((i - 1) / 8 + 1) * 8) else 8

/-- What `pdp_constant_process` reads of the object.  The dimensions are set by
`pdp_constant_dim` only. -/
structure Constant where
  xPacket0 : Int
  xType : Symbol
  xWidth : Nat
  xHeight : Nat
  xConstant : Nat
  bChannelMask : Nat
  width_legal : ∃ i, IsInt i ∧ xWidth = pdpImageprocLegalwidth i
  height_legal : ∃ i, IsInt i ∧ xHeight = pdpImageprocLegalwidth i
  mask_lt : bChannelMask < 2 ^ 32

/-- The constructor that is called, for the types that the object knows. -/
def Constant.kind (x : Constant) : Option PacketKind :=
  if x.xType = "yv12".toList then some .imageYCrCb
  else if x.xType = "grey".toList then some .imageGrey
  else none

/-- `plane[i] = value`, for `n` more words from a byte on. -/
def storeWords (value : Nat) : (n off : Nat) → List UInt8 → Option (List UInt8)
  | 0, _, data => some data
  | n + 1, off, data =>
      if off + 4 ≤ data.length then storeWords value n (off + 4) (blit data off (le32 value))
      else none

/-- `(value & 0xffff) | (value << 16)`, as a word. -/
def constantWord (x : Nat) : Nat := u32 (x <<< 16 ||| x &&& 0xffff)

/-- `pdp_imageproc_constant_process`, for the plane of a call. -/
def pdpImageprocConstantProcess (x : Nat) (c : ProcessCall) (data : List UInt8) :
    Option (List UInt8) :=
  match c.planes with
  | [plane] => storeWords (constantWord x) (u32 (c.width * c.height) / 2) (2 * plane.2) data
  | _ => none

/-- What a process routine does with the data that a call is for. -/
abbrev ProcessRoutine := ProcessCall → List UInt8 → Option (List UInt8)

def runCalls (process : ProcessRoutine) : List ProcessCall → List UInt8 → Option (List UInt8)
  | [], data => some data
  | c :: calls, data => (process c data).bind (runCalls process calls)

/-- `pdp_imageproc_dispatch_1buf(process, x, chanmask, packet)`, for a routine that works on the
data. -/
def dispatchWith (process : ProcessRoutine) (chanmask : Nat) (packet : Int) (s : Pool) :
    Except Fault Pool :=
  let (calls, s) := pdpImageprocDispatch1buf chanmask packet s
  match s.pdpPacketHeader packet with
  | none => .ok s
  | some header =>
      match runCalls process calls header.data.bytes with
      | none => .error .outOfBounds
      | some bytes => memcpyData packet bytes s

/-- `pdp_constant_process`: the new `x_packet0`. -/
def pdpConstantProcess (x : Constant) (s : Pool) : Except Fault (Int × Pool) :=
  let mask := x.bChannelMask
  match x.kind with
  | none => .ok (x.xPacket0, s)
  | some kind =>
      match (kind.new x.xWidth x.xHeight 0).run s with
      | .error e => .error e
      | .ok (p, s) =>
          match dispatchWith (pdpImageprocConstantProcess x.xConstant) mask p s with
          | .error e => .error e
          | .ok s =>
              match dispatchWith (pdpImageprocConstantProcess 0) (2 ^ 32 - (mask + 1)) p s with
              | .error e => .error e
              | .ok s => .ok (p, s)

/-- All pixels of the plane of a call have this value. -/
def Uniform (data : List UInt8) (c : ProcessCall) (value : Nat) : Prop :=
  ∀ plane ∈ c.planes, ∀ k < c.width * c.height,
    data[2 * (plane.2 + k)]? = some (UInt8.ofNat value) ∧
      data[2 * (plane.2 + k) + 1]? = some (UInt8.ofNat (value / 2 ^ 8))

/-- From any pool, with any packets to recycle: there is no access out of bounds, and the planes
of the new image are constant or zero, as the mask has it. -/
def ConstantRight (x : Constant) : Prop :=
  ∀ kind, x.kind = some kind → ∀ s,
    (∀ e, pdpConstantProcess x s = .error e → e = .nullPointer) ∧
    ∀ p s', pdpConstantProcess x s = .ok (p, s') → p ≠ -1 →
      ∃ q, s'.pdpPacketHeader p = some q ∧ ∀ j < planeCount q.info,
        Uniform q.data.bytes (planeCall [p] q.info j)
          (if x.bChannelMask.testBit j then x.xConstant else 0)

/-- The size of the image is not cut to 32 bits, or no such image can be made. -/
def ConstantFits (x : Constant) : Prop :=
  ∀ kind, x.kind = some kind →
    x.xWidth * x.xHeight < 2 ^ 30 ∨ Refused (kind.dataSize x.xWidth x.xHeight 0)

/-! ## Planes as a list -/

section Planes

variable {packets : List Int} {image : Info} {mask : Nat}

/-- The planes that the bits of a mask select. -/
def bitSelects (mask j : Nat) : Bool := decide (j < 32) && mask.testBit j

theorem callIf_eq {call : ProcessCall} {i : Nat} (hi : i < 32) :
    callIf mask (2 ^ i) call = if bitSelects mask i then [call] else [] := by
  unfold callIf bitSelects
  rw [decide_eq_true hi, Bool.true_and]
  exact if_congr land_two_pow rfl rfl

theorem dispatchMulti_eq {w h planeSize d i : Nat} :
    dispatchMulti packets mask w h planeSize d (u32 (2 ^ i)) (planeSize * i) =
      ((List.range' i d).filter (bitSelects mask)).map
        fun j => .at packets w h (planeSize * j) := by
  induction d generalizing i with
  | zero => rfl
  | succ d ih =>
      have hmask : u32 (u32 (2 ^ i) * 2) = u32 (2 ^ (i + 1)) := by
        unfold u32
        rw [Nat.pow_succ 2 i, Nat.mod_mul_mod]
      have hoffset : planeSize * i + planeSize = planeSize * (i + 1) := (Nat.mul_succ _ _).symm
      rw [dispatchMulti, hmask, hoffset, ih, List.range'_succ, List.filter_cons]
      have hbit : mask &&& u32 (2 ^ i) ≠ 0 ↔ bitSelects mask i = true := by
        rw [land_u32_two_pow]
        unfold bitSelects
        rw [Bool.and_eq_true, decide_eq_true_eq]
      unfold callIf
      by_cases hi : bitSelects mask i = true
      · rw [if_pos (hbit.mpr hi), if_pos hi]
        rfl
      · rw [if_neg (fun h => hi (hbit.mp h)), if_neg hi]
        rfl

/-- The calls of a dispatcher, in the order of the planes. -/
theorem dispatchPlanes_eq : dispatchPlanes packets image mask =
    ((List.range (planeCount image)).filter (bitSelects mask)).map (planeCall packets image) := by
  have h0 : ∀ call, callIf mask 1 call = if bitSelects mask 0 then [call] else [] :=
    fun _ => callIf_eq (by decide : 0 < 32)
  have h1 : ∀ call, callIf mask 2 call = if bitSelects mask 1 then [call] else [] :=
    fun _ => callIf_eq (by decide : 1 < 32)
  have h2 : ∀ call, callIf mask 4 call = if bitSelects mask 2 then [call] else [] :=
    fun _ => callIf_eq (by decide : 2 < 32)
  have hyv12 : pdpImageYV12 ≠ pdpImageGREY := by decide
  have hmchp : pdpImageMCHP ≠ pdpImageGREY ∧ pdpImageMCHP ≠ pdpImageYV12 := by decide
  unfold dispatchPlanes planeCount planeCall
  by_cases hg : image.encoding = pdpImageGREY
  · simp only [hg, hyv12.symm, if_true, if_false, false_and, h0]
    show _ = (([0] : List Nat).filter (bitSelects mask)).map _
    rw [List.filter_cons, List.filter_nil]
    cases bitSelects mask 0 <;> simp
  · by_cases hy : image.encoding = pdpImageYV12
    · simp only [hy, hyv12, if_true, if_false, true_and, h0, h1, h2]
      show _ = (([0, 1, 2] : List Nat).filter (bitSelects mask)).map _
      rw [List.filter_cons, List.filter_cons, List.filter_cons, List.filter_nil]
      cases bitSelects mask 0 <;> cases bitSelects mask 1 <;> cases bitSelects mask 2 <;> simp
    · by_cases hm : image.encoding = pdpImageMCHP
      · have hmulti := @dispatchMulti_eq packets mask image.width image.height
          (u32 (image.width * image.height)) image.depth 0
        rw [Nat.mul_zero, ← List.range_eq_range'] at hmulti
        simp only [hm, hmchp.1, hmchp.2, if_true, if_false, false_and]
        exact hmulti
      · simp only [hg, hy, hm, if_false]
        rfl

end Planes

/-! ## One dispatch -/

section Dispatches

variable {s : Pool} {p : Int} {q : Packet} {chanmask : Nat}

theorem dispatch1buf_valid (hq : s.pdpPacketHeader p = some q)
    (hvalid : pdpPacketImageIsvalid q = true) : pdpImageprocDispatch1buf chanmask p s =
      (dispatchPlanes [p] q.info (effectiveMask q.info chanmask),
        s.put p (some { q with info := { q.info with chanmask := 0 } })) := by
  unfold pdpImageprocDispatch1buf dispatch
  rw [hq]
  dsimp only
  rw [hvalid, Bool.not_true, if_neg Bool.false_ne_true]
  rfl

/-- The mask that says that all planes are meant has the bits of 32. -/
theorem bitSelects_allChannels (j : Nat) : bitSelects allChannels j = decide (j < 32) := by
  unfold bitSelects allChannels
  rw [Nat.testBit_two_pow_sub_one, Bool.and_self]

/-- The dispatcher does what its mask says if all planes are not meant, or have bits. -/
theorem dispatchRight_iff (chanmask : Nat) (packet0 : Int) (s : Pool) :
    DispatchRight chanmask packet0 s ↔ BitForEach chanmask packet0 s := by
  unfold DispatchRight BitForEach
  refine forall_congr' fun q => forall_congr' fun hq => forall_congr' fun hvalid => ?_
  rw [dispatch1buf_valid hq hvalid, dispatchPlanes_eq]
  dsimp only
  generalize effectiveMask q.info chanmask = mask
  constructor
  · rintro heq rfl
    -- The planes that the bits select, and all planes.
    have hlength := congrArg List.length heq
    have hall : (List.range (planeCount q.info)).filter (Selects allChannels) =
        List.range (planeCount q.info) := List.filter_eq_self.mpr fun _ _ => rfl
    rw [List.length_map, List.length_map, hall, List.length_filter_eq_length_iff] at hlength
    by_contra hmore
    have hbit := hlength 32 (List.mem_range.mpr (by omega))
    rw [bitSelects_allChannels] at hbit
    exact absurd hbit (by decide)
  · intro hbits
    refine congrArg _ (List.filter_congr fun j hj => ?_)
    unfold Selects
    by_cases hmask : mask = allChannels
    · have hlt : j < 32 := Nat.lt_of_lt_of_le (List.mem_range.mp hj) (hbits hmask)
      rw [hmask, bitSelects_allChannels, decide_eq_true hlt, decide_eq_true rfl, Bool.true_or]
    · rw [decide_eq_false hmask, Bool.false_or]
      rfl

/-! ## Two passes -/

theorem mem_dispatch1buf (hq : s.pdpPacketHeader p = some q)
    (hvalid : pdpPacketImageIsvalid q = true) (c : ProcessCall) :
    c ∈ (pdpImageprocDispatch1buf chanmask p s).1 ↔
      CallsFor p q.info (effectiveMask q.info chanmask) c := by
  rw [dispatch1buf_valid hq hvalid]
  exact mem_dispatchPlanes

/-- A dispatch after another one: the packet has lost its mask. -/
theorem mem_dispatch1buf_again (hq : s.pdpPacketHeader p = some q)
    (hvalid : pdpPacketImageIsvalid q = true) (c : ProcessCall) :
    c ∈ (pdpImageprocDispatch1buf chanmask p (pdpImageprocDispatch1buf chanmask p s).2).1 ↔
      CallsFor p q.info chanmask c := by
  rw [dispatch1buf_valid hq hvalid]
  exact @mem_dispatch1buf _ p { q with info := { q.info with chanmask := 0 } } chanmask
    (puts_of_header hq _).self hvalid c

/-- The passes agree if there is only one, or only one mask. -/
theorem convRight_iff (x : Conv) (p : Int) (s : Pool) : ConvRight x p s ↔ OneMask x p s := by
  unfold ConvRight OneMask
  refine forall_congr' fun q => forall_congr' fun hq => forall_congr' fun hvalid => ?_
  unfold pdpConvProcess
  cases hv : x.xVertical with
  | false =>
      refine iff_of_true ⟨fun h => absurd h Bool.false_ne_true, fun hh c => ?_⟩
        fun h => absurd h Bool.false_ne_true
      simp only [hh, if_true, Bool.false_eq_true, if_false]
      exact mem_dispatch1buf hq hvalid c
  | true =>
      have hfirst := fun c => @mem_dispatch1buf s p q x.bChannelMask hq hvalid c
      cases hh : x.xHorizontal with
      | false =>
          exact iff_of_true ⟨fun _ => hfirst, fun h => absurd h Bool.false_ne_true⟩
            fun _ h => absurd h Bool.false_ne_true
      | true =>
          have hsecond := fun c => @mem_dispatch1buf_again s p q x.bChannelMask hq hvalid c
          simp only [if_true, forall_const]
          constructor
          · rintro ⟨-, hsame⟩ hmask c
            rw [← hsecond c, hsame c, effectiveMask, if_pos hmask]
          · refine fun hsame => ⟨hfirst, fun c => (hsecond c).trans ?_⟩
            unfold effectiveMask
            by_cases hmask : q.info.chanmask ≠ 0
            · rw [if_pos hmask]
              exact hsame hmask c
            · rw [if_neg hmask]

end Dispatches

/-! ## Filling planes -/

section Fill

variable {x n off : Nat} {c c' : ProcessCall} {calls : List ProcessCall} {data : List UInt8}

/-- The bytes of a word that has the same two bytes twice. -/
theorem le32_twice {lo hi : Nat} (hlo : lo < 256) (hhi : hi < 256) :
    le32 ((lo + 256 * hi) * 65537) =
      [UInt8.ofNat lo, UInt8.ofNat hi, UInt8.ofNat lo, UInt8.ofNat hi] := by
  have hbyte : ∀ {a b : Nat}, a % 256 = b → UInt8.ofNat a = UInt8.ofNat b := fun {a b} h => by
    rw [← h]
    apply UInt8.toNat_inj.mp
    simp
  have h8 : (lo + 256 * hi) * 65537 / 2 ^ 8 = hi + 256 * (lo + 256 * hi) := by omega
  have h16 : (lo + 256 * hi) * 65537 / 2 ^ 16 = lo + 256 * hi := by omega
  have h24 : (lo + 256 * hi) * 65537 / 2 ^ 24 = hi := by omega
  unfold le32
  rw [h8, h16, h24, hbyte (by omega : (lo + 256 * hi) * 65537 % 256 = lo),
    hbyte (by omega : (hi + 256 * (lo + 256 * hi)) % 256 = hi),
    hbyte (by omega : (lo + 256 * hi) % 256 = lo)]

theorem le32_constantWord (x : Nat) : le32 (constantWord x) =
    [UInt8.ofNat x, UInt8.ofNat (x / 2 ^ 8), UInt8.ofNat x, UInt8.ofNat (x / 2 ^ 8)] := by
  have hlow : x &&& 0xffff = x % 2 ^ 16 := Nat.and_two_pow_sub_one_eq_mod x 16
  have hlt : x % 2 ^ 16 < 2 ^ 16 := Nat.mod_lt _ (by decide)
  have hword : constantWord x = (x % 256 + 256 * (x / 2 ^ 8 % 256)) * 65537 := by
    unfold constantWord u32
    have hhigh : x * 2 ^ 16 % 2 ^ 32 = x % 2 ^ 16 * 2 ^ 16 :=
      Nat.mul_mod_mul_right (2 ^ 16) x (2 ^ 16)
    have hpixel : x % 2 ^ 16 = x % 256 + 256 * (x / 2 ^ 8 % 256) := by omega
    rw [hlow, ← Nat.shiftLeft_add_eq_or_of_lt hlt, Nat.shiftLeft_eq, Nat.add_mod, hhigh,
      Nat.mod_eq_of_lt (by omega : x % 2 ^ 16 < 2 ^ 32), ← hpixel, Nat.mod_eq_of_lt (by omega)]
    omega
  have hbyte : ∀ n : Nat, UInt8.ofNat (n % 256) = UInt8.ofNat n := fun n => by
    apply UInt8.toNat_inj.mp
    simp
  rw [hword, le32_twice (Nat.mod_lt _ (by decide)) (Nat.mod_lt _ (by decide)), hbyte, hbyte]

theorem storeWords_spec {value : Nat} (h : off + 4 * n ≤ data.length) :
    ∃ data', storeWords value n off data = some data' ∧ data'.length = data.length ∧
      ∀ i, data'[i]? = if off ≤ i ∧ i < off + 4 * n then (le32 value)[(i - off) % 4]?
        else data[i]? := by
  induction n generalizing off data with
  | zero =>
      refine ⟨data, rfl, rfl, fun i => ?_⟩
      rw [if_neg (by omega)]
  | succ n ih =>
      have h4 : (le32 value).length = 4 := rfl
      have hlen : (blit data off (le32 value)).length = data.length := length_blit (by omega)
      obtain ⟨data', hrun, hlen', hget⟩ := @ih (off + 4) (blit data off (le32 value)) (by omega)
      refine ⟨data', ?_, hlen'.trans hlen, fun i => ?_⟩
      · rw [storeWords, if_pos (by omega)]
        exact hrun
      · rw [hget i, getElem?_blit (by omega), h4]
        by_cases hrest : off + 4 ≤ i ∧ i < off + 4 + 4 * n
        · have hmod : (i - (off + 4)) % 4 = (i - off) % 4 := by omega
          rw [if_pos hrest, if_pos (by omega), hmod]
        · rw [if_neg hrest]
          by_cases hfirst : off ≤ i ∧ i < off + 4
          · have hmod : (i - off) % 4 = i - off := Nat.mod_eq_of_lt (by omega)
            rw [if_pos hfirst, if_pos (by omega), hmod]
          · rw [if_neg hfirst, if_neg (by omega)]

/-- A call for one plane with an even number of pixels, inside the data. -/
structure Fillable (size : Nat) (c : ProcessCall) : Prop where
  plane : ∃ packet start, c.planes = [(packet, start)] ∧ 2 * (start + c.width * c.height) ≤ size
  area_lt : c.width * c.height < 2 ^ 32
  even : 2 ∣ c.width * c.height

/-- No pixel is in both planes. -/
def Apart (c c' : ProcessCall) : Prop :=
  ∀ plane ∈ c.planes, ∀ plane' ∈ c'.planes, plane.2 + c.width * c.height ≤ plane'.2 ∨
    plane'.2 + c'.width * c'.height ≤ plane.2

theorem constantProcess_spec (hc : Fillable data.length c) :
    ∃ data', pdpImageprocConstantProcess x c data = some data' ∧ data'.length = data.length ∧
      Uniform data' c x ∧
      ∀ c' value, Apart c c' → Uniform data c' value → Uniform data' c' value := by
  obtain ⟨packet, start, hplanes, hfits⟩ := hc.plane
  obtain ⟨half, heven⟩ := hc.even
  have hwords : u32 (c.width * c.height) / 2 = half := by
    rw [u32_eq_self hc.area_lt, heven]
    omega
  obtain ⟨data', hrun, hlen, hget⟩ :=
    @storeWords_spec half (2 * start) data (constantWord x) (by omega)
  refine ⟨data', ?_, hlen, ?_, ?_⟩
  · unfold pdpImageprocConstantProcess
    rw [hplanes]
    dsimp only
    rw [hwords]
    exact hrun
  · intro plane hplane k hk
    rw [hplanes, List.mem_singleton] at hplane
    rw [hplane, hget, hget, if_pos (by omega), if_pos (by omega), le32_constantWord]
    -- A pixel is the first or the second one of its word.
    rcases Nat.mod_two_eq_zero_or_one k with hk2 | hk2
    · have hlow : (2 * (start + k) - 2 * start) % 4 = 0 := by omega
      have hhigh : (2 * (start + k) + 1 - 2 * start) % 4 = 1 := by omega
      rw [hlow, hhigh]
      exact ⟨rfl, rfl⟩
    · have hlow : (2 * (start + k) - 2 * start) % 4 = 2 := by omega
      have hhigh : (2 * (start + k) + 1 - 2 * start) % 4 = 3 := by omega
      rw [hlow, hhigh]
      exact ⟨rfl, rfl⟩
  · intro c' value hapart huniform plane hplane k hk
    have hout := hapart (packet, start) (by rw [hplanes]; exact List.mem_singleton_self _) plane
      hplane
    dsimp only at hout
    rw [hget, hget, if_neg (by omega), if_neg (by omega)]
    exact huniform plane hplane k hk

theorem constantCalls_spec (hcalls : ∀ c ∈ calls, Fillable data.length c) :
    ∃ data', runCalls (pdpImageprocConstantProcess x) calls data = some data' ∧
      data'.length = data.length ∧
      ∀ c', (∀ c ∈ calls, c = c' ∨ Apart c c') → (c' ∈ calls → Uniform data' c' x) ∧
        (c' ∉ calls → ∀ value, Uniform data c' value → Uniform data' c' value) := by
  induction calls generalizing data with
  | nil =>
      exact ⟨data, rfl, rfl, fun c' _ => ⟨fun h => absurd h List.not_mem_nil, fun _ _ h => h⟩⟩
  | cons c calls ih =>
      obtain ⟨data₁, hfirst, hlen₁, hown, hother⟩ :=
        @constantProcess_spec x c data (hcalls c List.mem_cons_self)
      obtain ⟨data₂, hrest, hlen₂, hafter⟩ := @ih data₁ fun d hd =>
        hlen₁ ▸ hcalls d (List.mem_cons_of_mem c hd)
      refine ⟨data₂, ?_, hlen₂.trans hlen₁, fun c' hsep => ?_⟩
      · rw [runCalls, hfirst]
        exact hrest
      · obtain ⟨hin, hout⟩ := hafter c' fun d hd => hsep d (List.mem_cons_of_mem c hd)
        constructor
        · intro hmem
          by_cases htail : c' ∈ calls
          · exact hin htail
          · obtain rfl := (List.mem_cons.mp hmem).resolve_right htail
            exact hout htail x hown
        · intro hmem value huniform
          have hne : c ≠ c' := fun h => hmem (h ▸ List.mem_cons_self)
          exact hout (fun h => hmem (List.mem_cons_of_mem c h)) value
            (hother c' value ((hsep c List.mem_cons_self).resolve_left hne) huniform)

end Fill

/-! ## The planes of a constant image -/

section Geometry

variable {k : PacketKind} {w h : Nat} {q : Packet} {p : Int}

theorem legalwidth_dvd {i : Int} (hi : IsInt i) :
    8 ∣ pdpImageprocLegalwidth i ∧ 0 < pdpImageprocLegalwidth i ∧
      pdpImageprocLegalwidth i < 2 ^ 32 := by
  have hlt := hi.2
  unfold pdpImageprocLegalwidth ofInt32
  split
  · omega
  · omega

/-- The image kinds of `pdp_constant`. -/
theorem Constant.kind_cases {x : Constant} (hk : x.kind = some k) :
    k = .imageYCrCb ∨ k = .imageGrey := by
  unfold Constant.kind at hk
  split at hk
  · exact Or.inl (Option.some.inj hk).symm
  · split at hk
    · exact Or.inr (Option.some.inj hk).symm
    · cases hk

/-- The planes of an image with legal dimensions: they end inside the data, and each has an even
number of pixels. -/
theorem fillable_planes (hkind : k = .imageYCrCb ∨ k = .imageGrey) (hq : Built k w h 0 q)
    (hw : 8 ∣ w) (harea : w * h < 2 ^ 30) {j : Nat} (hj : j < planeCount q.info) :
    j < 32 ∧ Fillable q.data.bytes.length (planeCall [p] q.info j) := by
  have hends : j < 32 ∧ 2 * planeEnd q.info j ≤ q.data.size := by
    rcases hkind with rfl | rfl
    · have hcount : planeCount q.info = 3 := by
        unfold planeCount
        rw [hq.encoding]
        rfl
      have hlt : j < 32 := by omega
      exact ⟨hlt, ((planes_YCrCb hq hq).mpr harea j hj hlt).1⟩
    · have hcount : planeCount q.info = 1 := by
        unfold planeCount
        rw [hq.encoding]
        rfl
      have hlt : j < 32 := by omega
      exact ⟨hlt, ((planes_grey hq hq).mpr harea j hj hlt).1⟩
  obtain ⟨a, rfl⟩ := hw
  have heven : 2 ∣ 8 * a * h := ⟨4 * a * h, by ring⟩
  have hhalf : 8 * a / 2 = 4 * a := by omega
  have heven' : 2 ∣ 8 * a / 2 * (h / 2) := ⟨2 * a * (h / 2), by rw [hhalf]; ring⟩
  have hquarter := half_mul_half (8 * a) h
  refine ⟨hends.1, ?_⟩
  have hin := hends.2
  unfold planeEnd at hin
  unfold planeCall
  rw [hq.width, hq.height] at hin ⊢
  dsimp only at hin ⊢
  split
  · next hchroma =>
      rw [if_pos hchroma] at hin
      exact ⟨⟨p, _, rfl, hin⟩, show 8 * a / 2 * (h / 2) < 2 ^ 32 by omega, heven'⟩
  · next hluma =>
      rw [if_neg hluma] at hin
      exact ⟨⟨p, _, rfl, hin⟩, show 8 * a * h < 2 ^ 32 by omega, heven⟩

/-- Of two planes, the second one begins where the first one has ended. -/
theorem planes_apart (hq : Built k w h 0 q) (hw : 8 ∣ w) (hh : 8 ∣ h) (harea : w * h < 2 ^ 30)
    {i j : Nat} (hij : i < j) :
    Apart (planeCall [p] q.info i) (planeCall [p] q.info j) ∧
      Apart (planeCall [p] q.info j) (planeCall [p] q.info i) := by
  obtain ⟨a, rfl⟩ := hw
  obtain ⟨b, rfl⟩ := hh
  have hsize : u32 (8 * a * (8 * b)) = 8 * a * (8 * b) := u32_eq_self (by omega)
  have hchroma : 8 * a / 2 * (8 * b / 2) = 8 * a * (8 * b) / 4 := by
    have hmul : 8 * a * (8 * b) = 4 * (4 * a * (4 * b)) := by ring
    rw [hmul, Nat.mul_div_cancel_left _ (by decide), show 8 * a / 2 = 4 * a by omega,
      show 8 * b / 2 = 4 * b by omega]
  -- Where the planes begin, and how many pixels they have.
  have hbegin : ∃ start start' n n', (planeCall [p] q.info i).planes = [(p, start)] ∧
      (planeCall [p] q.info j).planes = [(p, start')] ∧
      (planeCall [p] q.info i).width * (planeCall [p] q.info i).height = n ∧
      (planeCall [p] q.info j).width * (planeCall [p] q.info j).height = n' ∧
      start + n ≤ start' := by
    unfold planeCall
    rw [hq.width, hq.height]
    dsimp only
    rw [hsize]
    by_cases hyv12 : q.info.encoding = pdpImageYV12
    · rw [if_pos (⟨hyv12, by omega⟩ : q.info.encoding = pdpImageYV12 ∧ 0 < j)]
      rcases Nat.eq_zero_or_pos i with rfl | hi
      · rw [if_neg fun h => absurd h.2 (by decide)]
        refine ⟨_, _, _, _, rfl, rfl, rfl, rfl, ?_⟩
        show 8 * a * (8 * b) * 0 + 8 * a * (8 * b) ≤ _
        omega
      · rw [if_pos (⟨hyv12, hi⟩ : q.info.encoding = pdpImageYV12 ∧ 0 < i)]
        refine ⟨_, _, _, _, rfl, rfl, rfl, rfl, ?_⟩
        show 8 * a * (8 * b) + 8 * a * (8 * b) / 4 * (i - 1) + 8 * a / 2 * (8 * b / 2) ≤ _
        rw [hchroma, Nat.add_assoc, ← Nat.mul_succ]
        exact Nat.add_le_add_left (Nat.mul_le_mul_left _ (by omega)) _
    · rw [if_neg fun h => hyv12 h.1, if_neg fun h => hyv12 h.1]
      refine ⟨_, _, _, _, rfl, rfl, rfl, rfl, ?_⟩
      show 8 * a * (8 * b) * i + 8 * a * (8 * b) ≤ _
      rw [← Nat.mul_succ]
      exact Nat.mul_le_mul_left _ hij
  obtain ⟨start, start', n, n', hi, hj, hn, hn', hle⟩ := hbegin
  unfold Apart
  rw [hi, hj, hn, hn']
  simp only [List.mem_singleton, forall_eq]
  exact ⟨Or.inl hle, Or.inr hle⟩

/-- A plane that is apart from itself has no pixels. -/
theorem uniform_of_apart_self {c : ProcessCall} {size value : Nat} {data : List UInt8}
    (hc : Fillable size c) (hapart : Apart c c) : Uniform data c value := by
  obtain ⟨packet, start, hplanes, _⟩ := hc.plane
  have hmem : (packet, start) ∈ c.planes := by
    rw [hplanes]
    exact List.mem_singleton_self _
  intro plane _ k hk
  rcases hapart _ hmem _ hmem with hnone | hnone
  · omega
  · omega

/-- A dispatch with a mask, and one with its complement. -/
theorem constant_planes (hkind : k = .imageYCrCb ∨ k = .imageGrey) (hq : Built k w h 0 q)
    (hw : 8 ∣ w) (hh : 8 ∣ h) (harea : w * h < 2 ^ 30) (x : Nat) {mask : Nat}
    (hmask : mask < 2 ^ 32) : ∃ data₁ data₂,
      runCalls (pdpImageprocConstantProcess x) (dispatchPlanes [p] q.info mask) q.data.bytes =
        some data₁ ∧
      data₁.length = q.data.bytes.length ∧
      runCalls (pdpImageprocConstantProcess 0)
        (dispatchPlanes [p] q.info (2 ^ 32 - (mask + 1))) data₁ = some data₂ ∧
      data₂.length = q.data.bytes.length ∧
      ∀ j < planeCount q.info,
        Uniform data₂ (planeCall [p] q.info j) (if mask.testBit j then x else 0) := by
  have hfill : ∀ {j}, j < planeCount q.info → j < 32 ∧ Fillable _ (planeCall [p] q.info j) :=
    fun hj => fillable_planes hkind hq hw harea hj
  have hcalls : ∀ m, ∀ c ∈ dispatchPlanes [p] q.info m, Fillable q.data.bytes.length c := by
    intro m c hc
    obtain ⟨j, hj, _, _, rfl⟩ := mem_dispatchPlanes.mp hc
    exact (hfill hj).2
  have hsep : ∀ m j, ∀ c ∈ dispatchPlanes [p] q.info m,
      c = planeCall [p] q.info j ∨ Apart c (planeCall [p] q.info j) := by
    intro m j c hc
    obtain ⟨i, _, _, _, rfl⟩ := mem_dispatchPlanes.mp hc
    rcases Nat.lt_trichotomy i j with hlt | rfl | hgt
    · exact Or.inr (planes_apart hq hw hh harea hlt).1
    · exact Or.inl rfl
    · exact Or.inr (planes_apart hq hw hh harea hgt).2
  obtain ⟨data₁, hrun₁, hlen₁, hspec₁⟩ := @constantCalls_spec x _ q.data.bytes (hcalls mask)
  obtain ⟨data₂, hrun₂, hlen₂, hspec₂⟩ := @constantCalls_spec 0 _ data₁
    (hlen₁ ▸ hcalls (2 ^ 32 - (mask + 1)))
  refine ⟨data₁, data₂, hrun₁, hlen₁, hrun₂, hlen₂.trans hlen₁, fun j hj => ?_⟩
  have hfirst := hspec₁ _ (hsep mask j)
  have hsecond := hspec₂ _ (hsep (2 ^ 32 - (mask + 1)) j)
  have hcomplement : ∀ {i}, i < 32 →
      (2 ^ 32 - (mask + 1)).testBit i = !mask.testBit i := fun {i} hi => by
    rw [Nat.testBit_two_pow_sub_succ hmask, decide_eq_true hi, Bool.true_and]
  cases hbit : mask.testBit j with
  | true =>
      rw [if_pos rfl]
      have huniform := hfirst.1 (mem_dispatchPlanes.mpr ⟨j, hj, (hfill hj).1, hbit, rfl⟩)
      by_cases hmem : planeCall [p] q.info j ∈ dispatchPlanes [p] q.info (2 ^ 32 - (mask + 1))
      · -- Only a plane without pixels is the same as another one.
        obtain ⟨i, _, hi, hbit', heq⟩ := mem_dispatchPlanes.mp hmem
        have hne : i ≠ j := by
          rintro rfl
          rw [hcomplement hi, hbit] at hbit'
          exact absurd hbit' (by decide)
        have hapart : Apart (planeCall [p] q.info j) (planeCall [p] q.info j) := by
          rcases Nat.lt_or_gt_of_ne hne with hlt | hgt
          · have := (planes_apart (p := p) hq hw hh harea hlt).1
            rwa [← heq] at this
          · have := (planes_apart (p := p) hq hw hh harea hgt).2
            rwa [← heq] at this
        exact uniform_of_apart_self (hfill hj).2 hapart
      · exact hsecond.2 hmem x huniform
  | false =>
      rw [if_neg Bool.false_ne_true]
      refine hsecond.1 (mem_dispatchPlanes.mpr ⟨j, hj, (hfill hj).1, ?_, rfl⟩)
      rw [hcomplement (hfill hj).1, hbit]
      rfl

end Geometry

/-! ## Dispatches on a pool -/

section OnPool

variable {s : Pool} {p : Int} {q : Packet} {process : ProcessRoutine}
  {mask : Nat}

theorem dispatchWith_ok (hq : s.pdpPacketHeader p = some q)
    (hvalid : pdpPacketImageIsvalid q = true) (hmask : q.info.chanmask = 0) {data : List UInt8}
    (hcalls : runCalls process (dispatchPlanes [p] q.info mask) q.data.bytes = some data)
    (hlen : data.length = q.data.bytes.length) :
    ∃ s' q', dispatchWith process mask p s = .ok s' ∧ s'.pdpPacketHeader p = some q' ∧
      q'.toMeta = q.toMeta ∧ q'.data.bytes = data := by
  have hsame : { q with info := { q.info with chanmask := 0 } } = q := by
    rw [← hmask]
  have heffective : effectiveMask q.info mask = mask := by
    unfold effectiveMask
    rw [if_neg fun h => h hmask]
  have hfits : data.length ≤ q.data.size := Nat.le_of_eq hlen
  refine ⟨s.put p (some { q with data := q.data.overwrite data hfits }), _, ?_,
    (puts_of_header hq _).self, rfl, ?_⟩
  · unfold dispatchWith
    rw [dispatch1buf_valid hq hvalid, hsame, put_same hq, heffective]
    dsimp only
    rw [hq]
    dsimp only
    rw [hcalls]
    unfold memcpyData
    rw [hq]
    dsimp only
    rw [dif_pos hfits]
  · show data ++ q.data.bytes.drop data.length = data
    rw [hlen, List.drop_length, List.append_nil]

theorem dispatchWith_none (hq : s.pdpPacketHeader p = none) :
    dispatchWith process mask p s = .ok s := by
  unfold dispatchWith pdpImageprocDispatch1buf
  rw [hq]
  dsimp only
  rw [hq]

/-- What goes wrong with a packet is an access out of bounds. -/
theorem dispatchWith_some (hq : s.pdpPacketHeader p = some q)
    (hvalid : pdpPacketImageIsvalid q = true) :
    dispatchWith process mask p s = .error .outOfBounds ∨
      ∃ s' q', dispatchWith process mask p s = .ok s' ∧ s'.pdpPacketHeader p = some q' ∧
        pdpPacketImageIsvalid q' = true ∧ q'.info = { q.info with chanmask := 0 } := by
  have hself : (s.put p (some { q with info := { q.info with chanmask := 0 } })).pdpPacketHeader p =
      some { q with info := { q.info with chanmask := 0 } } := (puts_of_header hq _).self
  unfold dispatchWith
  rw [dispatch1buf_valid hq hvalid]
  dsimp only
  rw [hself]
  dsimp only
  split
  · exact Or.inl rfl
  · unfold memcpyData
    rw [hself]
    dsimp only
    split
    · exact Or.inr ⟨_, _, rfl, (puts_of_header hself _).self, hvalid, rfl⟩
    · exact Or.inl rfl

end OnPool

/-! ## When a constant image is constant -/

section ConstantImage

variable {x : Constant} {kind : PacketKind} {s : Pool}

theorem pdpConstantProcess_eq (hkind : x.kind = some kind) {p : Int} {s₁ : Pool}
    (hrun : (kind.new x.xWidth x.xHeight 0).run s = .ok (p, s₁)) : pdpConstantProcess x s =
      match dispatchWith (pdpImageprocConstantProcess x.xConstant) x.bChannelMask p s₁ with
      | .error e => .error e
      | .ok s =>
          match dispatchWith (pdpImageprocConstantProcess 0)
              (2 ^ 32 - (x.bChannelMask + 1)) p s with
          | .error e => .error e
          | .ok s => .ok (p, s) := by
  unfold pdpConstantProcess
  dsimp only
  rw [hkind]
  dsimp only
  rw [hrun]

theorem pdpConstantProcess_error (hkind : x.kind = some kind) {e : Fault}
    (hrun : (kind.new x.xWidth x.xHeight 0).run s = .error e) :
    pdpConstantProcess x s = .error e := by
  unfold pdpConstantProcess
  dsimp only
  rw [hkind]
  dsimp only
  rw [hrun]

theorem isvalid_header (hkind : kind = .imageYCrCb ∨ kind = .imageGrey) (w h : Nat)
    (data : DataArea) : pdpPacketImageIsvalid ⟨kind.header w h 0, 1, data⟩ = true ∧
      (kind.header w h 0).info.chanmask = 0 := by
  rcases hkind with rfl | rfl
  · exact ⟨rfl, rfl⟩
  · exact ⟨rfl, rfl⟩

/-- The size of a small image does not wrap around. -/
theorem not_overruns (hkind : kind = .imageYCrCb ∨ kind = .imageGrey) {w h : Nat}
    (harea : w * h < 2 ^ 30) : ¬ Overruns (kind.dataSize w h 0) := by
  have harea' : u32 (w * h) = w * h := u32_eq_self (by omega)
  have hbound : kind.dataSize w h 0 < 3 * 2 ^ 30 := by
    rcases hkind with rfl | rfl
    · show u32 (u32 (u32 (w * h) + u32 (w * h) / 2) * 2) < _
      rw [harea', u32_eq_self (show w * h + w * h / 2 < 2 ^ 32 by omega), u32_eq_self (by omega)]
      omega
    · show u32 (u32 (w * h) * 2) < _
      rw [harea', u32_eq_self (by omega)]
      omega
  rw [overruns_iff (kind.dataSize_lt w h 0), not_not]
  unfold Refused Fitting pdpHeaderSize
  omega

theorem constant_made (hkind : x.kind = some kind) {p : Int} {s₁ : Pool} {data : DataArea}
    (harea : x.xWidth * x.xHeight < 2 ^ 30)
    (hrun : (kind.new x.xWidth x.xHeight 0).run s = .ok (p, s₁))
    (hheader : s₁.pdpPacketHeader p = some ⟨kind.header x.xWidth x.xHeight 0, 1, data⟩)
    (hsize : data.size = kind.dataSize x.xWidth x.xHeight 0) :
    ∃ s' q, pdpConstantProcess x s = .ok (p, s') ∧ s'.pdpPacketHeader p = some q ∧
      ∀ j < planeCount q.info, Uniform q.data.bytes (planeCall [p] q.info j)
        (if x.bChannelMask.testBit j then x.xConstant else 0) := by
  obtain ⟨_, hi, hwidth⟩ := x.width_legal
  obtain ⟨_, hi', hheight⟩ := x.height_legal
  obtain ⟨hw8, _, hw⟩ := hwidth ▸ legalwidth_dvd hi
  obtain ⟨hh8, _, hh⟩ := hheight ▸ legalwidth_dvd hi'
  have hcases := Constant.kind_cases hkind
  obtain ⟨hvalid, hmask⟩ := isvalid_header hcases x.xWidth x.xHeight data
  have hbuilt := built_header (k := kind) hw hh (by decide : 0 < 2 ^ 32) hsize
  obtain ⟨data₁, data₂, hcalls₁, hlen₁, hcalls₂, hlen₂, huniform⟩ :=
    constant_planes (p := p) hcases hbuilt hw8 hh8 harea x.xConstant x.mask_lt
  obtain ⟨s₂, q₂, hfirst, hq₂, hmeta₂, hdata₂⟩ :=
    dispatchWith_ok hheader hvalid hmask hcalls₁ hlen₁
  obtain ⟨m, u, data₂'⟩ := q₂
  obtain rfl : m = kind.header x.xWidth x.xHeight 0 := hmeta₂
  obtain rfl : data₂'.bytes = data₁ := hdata₂
  obtain ⟨s₃, q₃, hsecond, hq₃, hmeta₃, hdata₃⟩ :=
    @dispatchWith_ok _ _ _ (pdpImageprocConstantProcess 0) _ hq₂ hvalid hmask data₂ hcalls₂
      (hlen₂.trans hlen₁.symm)
  refine ⟨s₃, q₃, ?_, hq₃, ?_⟩
  · rw [pdpConstantProcess_eq hkind hrun, hfirst]
    dsimp only
    rw [hsecond]
  · rw [hmeta₃, hdata₃]
    exact huniform

/-- An image that is larger than its data has no plane to fill. -/
theorem constant_cut (hkind : x.kind = some kind) {p : Int} {s₁ : Pool} {data : DataArea}
    (harea : 2 ^ 30 ≤ x.xWidth * x.xHeight) (hp : p ≠ -1)
    (hrun : (kind.new x.xWidth x.xHeight 0).run s = .ok (p, s₁))
    (hheader : s₁.pdpPacketHeader p = some ⟨kind.header x.xWidth x.xHeight 0, 1, data⟩) :
    ¬ ConstantRight x := by
  intro hright
  obtain ⟨herror, hok⟩ := hright kind hkind s
  have heq := pdpConstantProcess_eq hkind hrun
  have hcases := Constant.kind_cases hkind
  obtain ⟨hvalid, _⟩ := isvalid_header hcases x.xWidth x.xHeight data
  rcases @dispatchWith_some s₁ p _ (pdpImageprocConstantProcess x.xConstant) x.bChannelMask hheader
      hvalid with
    hfault | ⟨s₂, q₂, hfirst, hq₂, hvalid₂, hinfo₂⟩
  · rw [hfault] at heq
    cases herror _ heq
  rw [hfirst] at heq
  dsimp only at heq
  rcases @dispatchWith_some s₂ p q₂ (pdpImageprocConstantProcess 0)
      (2 ^ 32 - (x.bChannelMask + 1)) hq₂ hvalid₂ with
    hfault | ⟨s₃, q₃, hsecond, hq₃, _, hinfo₃⟩
  · rw [hfault] at heq
    cases herror _ heq
  rw [hsecond] at heq
  obtain ⟨q, hq, huniform⟩ := hok p s₃ heq hp
  obtain rfl := Option.some.inj (hq₃.symm.trans hq)
  have hcount : 0 < planeCount q₃.info := by
    rw [hinfo₃, hinfo₂]
    rcases hcases with rfl | rfl
    · exact (by decide : 0 < 3)
    · exact (by decide : 0 < 1)
  have hcall : planeCall [p] q₃.info 0 = ⟨x.xWidth, x.xHeight, [(p, 0)]⟩ := by
    unfold planeCall
    rw [if_neg fun h => absurd h.2 (by decide), hinfo₃, hinfo₂]
    rcases hcases with rfl | rfl
    · rfl
    · rfl
  -- The last pixel of the first plane.
  have hlast := huniform 0 hcount
  rw [hcall] at hlast
  have hbyte := (hlast (p, 0) (List.mem_singleton_self _) (x.xWidth * x.xHeight - 1)
    (show _ < x.xWidth * x.xHeight by omega)).1
  have hlt := (List.getElem?_eq_some_iff.mp hbyte).1
  have hbound := q₃.data.size_lt
  unfold pdpHeaderSize at hbound
  dsimp only at hlt
  omega

/-- Exactly for these dimensions the planes of a constant image are what the mask says. -/
theorem constantRight_iff (x : Constant) : ConstantRight x ↔ ConstantFits x := by
  constructor
  · intro hright kind hkind
    by_contra hno
    obtain ⟨hlarge, hrefused⟩ := not_or.mp hno
    have hc := kind.constructs x.xWidth x.xHeight 0
    have husers : 0 < greyPixel.users := by decide
    by_cases hfit : Fitting (kind.dataSize x.xWidth x.xHeight 0)
    · -- Any unused packet of that size will do.
      obtain ⟨s₁, hrun, hheader, _⟩ := run_recycled hc husers hfit
        (DataArea.size_ofFill _ hfit fun _ => 0)
      exact constant_cut hkind (Nat.le_of_not_lt hlarge) (by decide) hrun hheader hright
    · have hover := (overruns_iff (kind.dataSize_lt x.xWidth x.xHeight 0)).mpr
        (not_or.mpr ⟨hrefused, hfit⟩)
      have hrun := make_overruns hc husers hover ⟨[], DataArea.empty_size_lt⟩
      cases (hright kind hkind _).1 _ (pdpConstantProcess_error hkind hrun)
  · intro hfits kind hkind s
    have hcases := Constant.kind_cases hkind
    rcases (kind.constructs x.xWidth x.xHeight 0).run_cases (kind.dataSize_lt _ _ _) s with
      ⟨e, hrun, he⟩ | ⟨s₁, hrun⟩ | ⟨hfit, p, s₁, data, hrun, hheader, hsize, _⟩
    · have heq := pdpConstantProcess_error hkind hrun
      rw [heq]
      refine ⟨fun e' he' => ?_, fun p s' h => by cases h⟩
      cases he'
      refine he.resolve_right fun hover => ?_
      rcases hfits kind hkind with harea | hrefused
      · exact not_overruns hcases harea hover
      · exact (overruns_iff (kind.dataSize_lt _ _ _)).mp hover (Or.inl hrefused)
    · have heq := pdpConstantProcess_eq hkind hrun
      rw [dispatchWith_none (header_neg_one s₁)] at heq
      dsimp only at heq
      rw [dispatchWith_none (header_neg_one s₁)] at heq
      rw [heq]
      refine ⟨fun e h => (by cases h), fun p s' h hp => ?_⟩
      cases h
      exact absurd rfl hp
    · have harea := (hfits kind hkind).resolve_right fun h => not_fitting_of_refused h hfit
      obtain ⟨s', q, heq, hq, huniform⟩ := constant_made hkind harea hrun hheader hsize
      rw [heq]
      refine ⟨fun e h => (by cases h), fun p' s'' h _ => ?_⟩
      cases h
      exact ⟨q, hq, huniform⟩

end ConstantImage

/-! ## All three -/

/-- When a dispatcher goes over the planes that it is told to, when two passes go over the same
ones, and when a constant image is constant. -/
theorem dispatches_right_iff (chanmask : Nat) (packet0 p : Int) (s t : Pool) (x : Conv)
    (y : Constant) : (DispatchRight chanmask packet0 s ↔ BitForEach chanmask packet0 s) ∧
      (ConvRight x p t ↔ OneMask x p t) ∧ (ConstantRight y ↔ ConstantFits y) :=
  ⟨dispatchRight_iff chanmask packet0 s, convRight_iff x p t, constantRight_iff y⟩

theorem manyPlanes_size_lt : (List.replicate 66 (0 : UInt8)).length + pdpHeaderSize < 2 ^ 31 := by
  decide

def manyPlanes : Packet := multiPixel 33 ⟨List.replicate 66 0, manyPlanes_size_lt⟩

/-- The mask -1 does not select plane 32.  And if a packet says that its second plane is meant,
the vertical pass goes over that one, and the horizontal pass goes over the first one too. -/
theorem not_dispatches_right : ¬ DispatchRight allChannels 0 (pair manyPlanes manyPlanes) ∧
    ¬ ConvRight ⟨true, true, allChannels⟩ 0 (pair (twoPlanes.withChanmask 2) twoPlanes) := by
  constructor
  · intro hright
    have hcount := (dispatchRight_iff _ _ _).mp hright manyPlanes rfl rfl rfl
    exact absurd hcount (by decide)
  · intro hright
    have hsame := (convRight_iff _ _ _).mp hright _ rfl rfl rfl rfl (by decide)
      (planeCall [0] (twoPlanes.withChanmask 2).info 0)
    obtain ⟨j, hj, _, hbit, heq⟩ := hsame.mp ⟨0, by decide, by decide, by decide, rfl⟩
    have hcases : j = 0 ∨ j = 1 := by
      have : j < 2 := hj
      omega
    rcases hcases with rfl | rfl
    · exact absurd hbit (by decide)
    · exact absurd heq (by decide)

end PureDataPacket
