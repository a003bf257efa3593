/-
# `PureDataPacket.Object.Bqt` — the state packets of a filter in time

`pdp_bqt` keeps two images of the size of its input as the state of a filter.  `pdp_bqt_preproc`
looks whether they are compatible with what has come in; the code tests the first one, twice, and
not the second one.  If they are not, both are released and made anew as clones of the input, and
each of the two clones can fail.

| | |
| :-- | :-- |
| `Settled` | two images of the kind of the input, or nothing is processed |
| `ClonesFit` | what the clones can be, and not the second one alone fails |
| `bqt_preprocRight` | in every run in which the clones fit, each `pdp_bqt_preproc` is right |
-/
import PureDataPacket.Kernel.CloneOrigin
import PureDataPacket.Type.Planes

namespace PureDataPacket

open Pool

/-! ## The object -/

/-- What `pdp_bqt_preproc` and `pdp_bqt_process` read of the object, the filter aside. -/
structure Bqt where
  xPacket1 : Int
  xPacket2 : Int
  xResetOnFormatchange : Bool
  bChannelMask : Nat
deriving DecidableEq

/-- `pdp_imageproc_zero_process`.  The size for `memset` is an `int`; a negative one is a very
large size. -/
def pdpImageprocZeroProcess (c : ProcessCall) (data : List UInt8) : Option (List UInt8) :=
  match c.planes with
  | [plane] =>
      let bytesize := toInt32 (u32 (u32 (c.width * c.height) * 2))
      if 0 ≤ bytesize ∧ 2 * plane.2 + bytesize.toNat ≤ data.length then
        some (blit data (2 * plane.2) (List.replicate bytesize.toNat 0))
      else none
  | _ => none

/-- `pdp_bqt_reset`. -/
def pdpBqtReset (x : Bqt) (s : Pool) : Except Fault Pool :=
  match dispatchWith pdpImageprocZeroProcess allChannels x.xPacket1 s with
  | .error e => .error e
  | .ok s => dispatchWith pdpImageprocZeroProcess allChannels x.xPacket2 s

/-- `pdp_bqt_preproc`, for the packet in the left inlet. -/
def pdpBqtPreproc (p0 : Int) (x : Bqt) (s : Pool) : Except Fault (Bqt × Pool) :=
  if !(pdpPacketImageCompat p0 x.xPacket1 s && pdpPacketImageCompat p0 x.xPacket1 s) then
    let s := pdpPacketMarkUnused x.xPacket1 s
    let s := pdpPacketMarkUnused x.xPacket2 s
    match (pdpPacketCloneRw p0).run s with
    | .error e => .error e
    | .ok (packet1, s) =>
        match (pdpPacketCloneRw p0).run s with
        | .error e => .error e
        | .ok (packet2, s) =>
            let x := { x with xPacket1 := packet1, xPacket2 := packet2 }
            if x.xResetOnFormatchange then
              match pdpBqtReset x s with
              | .error e => .error e
              | .ok s => .ok (x, s)
            else .ok (x, s)
  else .ok (x, s)

/-- `pdp_bqt_process`: the calls of `pdp_imageproc_bqt_process`. -/
def pdpBqtProcess (p0 : Int) (x : Bqt) (s : Pool) : List ProcessCall × Pool :=
  pdpImageprocDispatch3buf x.bChannelMask p0 x.xPacket1 x.xPacket2 s

/-! ## What the state packets should be -/

/-- Two different images, both of them compatible with the input and owned once; or
`pdp_bqt_process` makes no call and changes no packet. -/
def Settled (p0 : Int) (x : Bqt) (s : Pool) : Prop :=
  (∃ p a b, s.pdpPacketHeader p0 = some p ∧ s.pdpPacketHeader x.xPacket1 = some a ∧
    s.pdpPacketHeader x.xPacket2 = some b ∧ x.xPacket1 ≠ x.xPacket2 ∧ Compat p a ∧ Compat p b ∧
    a.users = 1 ∧ b.users = 1) ∨ pdpBqtProcess p0 x s = ([], s)

/-- All planes of this packet are zero. -/
def Cleared (packet : Int) (s : Pool) : Prop :=
  ∀ q, s.pdpPacketHeader packet = some q → ∀ j < planeCount q.info,
    Uniform q.data.bytes (planeCall [packet] q.info j) 0

/-- The state packets are about to be made anew. -/
def Recreates (p0 : Int) (x : Bqt) (s : Pool) : Prop :=
  pdpPacketImageCompat p0 x.xPacket1 s = false

/-- What is owed after `pdp_bqt_preproc`. -/
def PreprocRight (p0 : Int) (x : Bqt) (s : Pool) : Prop :=
  ∀ x' s', pdpBqtPreproc p0 x s = .ok (x', s') → Settled p0 x' s' ∧
    (Recreates p0 x s → x.xResetOnFormatchange = true →
      Cleared x'.xPacket1 s' ∧ Cleared x'.xPacket2 s')

/-! ## When it is right -/

/-- `pdp_bqt_reset` can clear such an image: it has no channel mask of its own, a bit for each of
its planes, and a size that is not cut to an `int`. -/
structure Clearable (image : Info) : Prop where
  chanmask : image.chanmask = 0
  planes : planeCount image ≤ 32
  area : image.width * image.height < 2 ^ 30

/-- Whatever a clone of `p` can be in this pool is a state packet for `p`. -/
def CloneFits (reset : Bool) (s : Pool) (p : Packet) : Prop :=
  ∀ q, CloneOrigin s p q → Compat p q ∧ q.users = 1 ∧ (reset = true → Clearable q.info)

/-- The pool in which the first clone is made. -/
def afterRelease (x : Bqt) (s : Pool) : Pool :=
  pdpPacketMarkUnused x.xPacket2 (pdpPacketMarkUnused x.xPacket1 s)

/-- If the state packets are made anew: what can be got for them fits, and if there is a packet
for the first one there is one for the second one. -/
def ClonesFit (p0 : Int) (x : Bqt) (s : Pool) : Prop :=
  Recreates p0 x s → ∀ p, s.pdpPacketHeader p0 = some p →
    CloneFits x.xResetOnFormatchange (afterRelease x s) p ∧
    ∀ packet1 s₁, (pdpPacketCloneRw p0).run (afterRelease x s) = .ok (packet1, s₁) →
      CloneFits x.xResetOnFormatchange s₁ p ∧
      (packet1 ≠ -1 → ∀ packet2 s₂, (pdpPacketCloneRw p0).run s₁ = .ok (packet2, s₂) →
        packet2 ≠ -1)

/-! ## Runs -/

/-- The state packets stay where they are; what is in them may change.  So it is with
`pdp_bqt_process`, and with other objects, which own neither of them. -/
def LeavesState (x : Bqt) (s s' : Pool) : Prop :=
  ∀ h, h = x.xPacket1 ∨ h = x.xPacket2 → ∀ q, s.pdpPacketHeader h = some q →
    ∃ q', s'.pdpPacketHeader h = some q' ∧ q'.toMeta = q.toMeta ∧ q'.users = q.users

/-- A valid image in the left inlet, which is none of the state packets. -/
structure Arrived (p0 : Int) (p : Packet) (x : Bqt) (s : Pool) : Prop where
  header : s.pdpPacketHeader p0 = some p
  valid : pdpPacketImageIsvalid p = true
  users : p.users ≠ 0
  other : p0 ≠ x.xPacket1 ∧ p0 ≠ x.xPacket2

/-- The runs of an object in which each `pdp_bqt_preproc` begins in a state of this kind. -/
inductive BqtRun (Good : Int → Bqt → Pool → Prop) : Bqt → Pool → Prop
  | new (reset : Bool) (mask : Nat) (s : Pool) : BqtRun Good ⟨-1, -1, reset, mask⟩ s
  | preproc {x x' : Bqt} {s s' : Pool} {p0 : Int} {p : Packet} : BqtRun Good x s →
      Arrived p0 p x s → Good p0 x s → pdpBqtPreproc p0 x s = .ok (x', s') → BqtRun Good x' s'
  | reset {x : Bqt} {s s' : Pool} : BqtRun Good x s → pdpBqtReset x s = .ok s' → BqtRun Good x s'
  | config {x : Bqt} {s : Pool} (reset : Bool) (mask : Nat) : BqtRun Good x s →
      BqtRun Good { x with xResetOnFormatchange := reset, bChannelMask := mask } s
  | others {x : Bqt} {s s' : Pool} : BqtRun Good x s → LeavesState x s s' → BqtRun Good x s'

/-- There is no first state packet, or there are two that are alike. -/
def Twins (x : Bqt) (s : Pool) : Prop :=
  x.xPacket1 = -1 ∨ ∃ a b, s.pdpPacketHeader x.xPacket1 = some a ∧
    s.pdpPacketHeader x.xPacket2 = some b ∧ x.xPacket1 ≠ x.xPacket2 ∧ Compat a b ∧
    a.users = 1 ∧ b.users = 1

/-! ## Clearing -/

section Clearing

variable {c c' : ProcessCall} {calls : List ProcessCall} {data data' : List UInt8} {packet : Int}
  {s s' : Pool} {q : Packet}

/-- A call clears its plane, and what was clear stays so. -/
theorem zeroProcess_spec (harea : c.width * c.height < 2 ^ 30)
    (h : pdpImageprocZeroProcess c data = some data') : data'.length = data.length ∧
      Uniform data' c 0 ∧ ∀ c', Uniform data c' 0 → Uniform data' c' 0 := by
  have hsize : toInt32 (u32 (u32 (c.width * c.height) * 2)) =
      ((2 * (c.width * c.height) : Nat) : Int) := by
    rw [u32_eq_self (show c.width * c.height < 2 ^ 32 by omega), u32_eq_self (by omega),
      Nat.mul_comm]
    exact toInt32_of_nat_lt (by omega)
  unfold pdpImageprocZeroProcess at h
  split at h
  · next plane hplanes =>
      rw [hsize] at h
      dsimp only at h
      rw [Int.toNat_natCast] at h
      split at h
      · next hfits =>
          obtain rfl := Option.some.inj h
          have hzeros : (List.replicate (2 * (c.width * c.height)) (0 : UInt8)).length =
              2 * (c.width * c.height) := List.length_replicate
          have hin : 2 * plane.2 + (List.replicate (2 * (c.width * c.height)) (0 : UInt8)).length ≤
              data.length := by
            rw [hzeros]
            exact hfits.2
          have hget := fun i => getElem?_blit hin i
          rw [hzeros] at hget
          have hzero : ∀ i, i < 2 * (c.width * c.height) →
              (List.replicate (2 * (c.width * c.height)) (0 : UInt8))[i]? = some 0 := fun i hi => by
            rw [List.getElem?_replicate, if_pos hi]
          refine ⟨length_blit hin, fun plane' hplane' k hk => ?_,
            fun c' hc' plane' hplane' k hk => ?_⟩
          · rw [hplanes, List.mem_singleton] at hplane'
            rw [hplane', hget, hget, if_pos (by omega), if_pos (by omega), hzero _ (by omega),
              hzero _ (by omega)]
            exact ⟨rfl, rfl⟩
          · obtain ⟨hlow, hhigh⟩ := hc' plane' hplane' k hk
            have hstays : ∀ i, data[i]? = some (0 : UInt8) →
                (blit data (2 * plane.2) (List.replicate (2 * (c.width * c.height)) 0))[i]? =
                  some (0 : UInt8) := fun i hi => by
              rw [hget]
              split
              · exact hzero _ (by omega)
              · exact hi
            exact ⟨hstays _ hlow, hstays _ hhigh⟩
      · cases h
  · cases h

theorem runCalls_zero (harea : ∀ c ∈ calls, c.width * c.height < 2 ^ 30)
    (h : runCalls pdpImageprocZeroProcess calls data = some data') : data'.length = data.length ∧
      (∀ c ∈ calls, Uniform data' c 0) ∧ ∀ c', Uniform data c' 0 → Uniform data' c' 0 := by
  induction calls generalizing data with
  | nil =>
      obtain rfl := Option.some.inj h
      exact ⟨rfl, fun c hc => absurd hc List.not_mem_nil, fun _ h => h⟩
  | cons c calls ih =>
      obtain ⟨data₁, hfirst, hrest⟩ := Option.bind_eq_some_iff.mp h
      obtain ⟨hlen, hown, hstays⟩ := zeroProcess_spec (harea c List.mem_cons_self) hfirst
      obtain ⟨hlen', hall, hstays'⟩ := ih (fun d hd => harea d (List.mem_cons_of_mem c hd)) hrest
      refine ⟨hlen'.trans hlen, fun d hd => ?_, fun c' hc' => hstays' c' (hstays c' hc')⟩
      rcases List.mem_cons.mp hd with rfl | hd
      · exact hstays' d hown
      · exact hall d hd

/-- The header of an image, its channel mask aside. -/
structure SameImage (q q' : Packet) : Prop where
  type : q'.type = q.type
  encoding : q'.info.encoding = q.info.encoding
  width : q'.info.width = q.info.width
  height : q'.info.height = q.info.height
  users : q'.users = q.users

theorem SameImage.refl (q : Packet) : SameImage q q := ⟨rfl, rfl, rfl, rfl, rfl⟩

theorem SameImage.trans {q₁ q₂ q₃ : Packet} (h : SameImage q₁ q₂) (h' : SameImage q₂ q₃) :
    SameImage q₁ q₃ where
  type := h'.type.trans h.type
  encoding := h'.encoding.trans h.encoding
  width := h'.width.trans h.width
  height := h'.height.trans h.height
  users := h'.users.trans h.users

/-- The planes of an image are no larger than the image. -/
theorem area_planeCall {packets : List Int} {image : Info}
    (harea : image.width * image.height < 2 ^ 30) (j : Nat) :
    (planeCall packets image j).width * (planeCall packets image j).height < 2 ^ 30 := by
  unfold planeCall
  dsimp only
  split
  · have hquarter := half_mul_half image.width image.height
    show image.width / 2 * (image.height / 2) < 2 ^ 30
    omega
  · exact harea

/-- The calls for all channels clear each plane of such an image. -/
theorem runCalls_clear {image : Info} (hclear : Clearable image)
    (h : runCalls pdpImageprocZeroProcess
      (dispatchPlanes [packet] image (effectiveMask image allChannels)) data = some data') :
    data'.length = data.length ∧
      ∀ j < planeCount image, Uniform data' (planeCall [packet] image j) 0 := by
  have hareas : ∀ c ∈ dispatchPlanes [packet] image (effectiveMask image allChannels),
      c.width * c.height < 2 ^ 30 := by
    intro c hc
    obtain ⟨j, _, _, _, rfl⟩ := mem_dispatchPlanes.mp hc
    exact area_planeCall hclear.area j
  obtain ⟨hlen, hall, _⟩ := runCalls_zero hareas h
  refine ⟨hlen, fun j hj => ?_⟩
  have hlt : j < 32 := Nat.lt_of_lt_of_le hj hclear.planes
  have hbit : (effectiveMask image allChannels).testBit j = true := by
    unfold effectiveMask allChannels
    rw [if_neg fun h => h hclear.chanmask, Nat.testBit_two_pow_sub_one]
    exact decide_eq_true hlt
  exact hall _ (mem_dispatchPlanes.mpr ⟨j, hj, hlt, hbit, rfl⟩)

/-- One packet is cleared.  The others stay as they are. -/
theorem dispatchZero_spec
    (h : dispatchWith pdpImageprocZeroProcess allChannels packet s = .ok s') :
    (∀ y, y ≠ packet → s'.pdpPacketHeader y = s.pdpPacketHeader y) ∧
      ∀ q, s.pdpPacketHeader packet = some q → ∃ q', s'.pdpPacketHeader packet = some q' ∧
        SameImage q q' ∧ (pdpPacketImageIsvalid q = true → Clearable q.info →
          q'.info = q.info ∧
          ∀ j < planeCount q.info, Uniform q'.data.bytes (planeCall [packet] q.info j) 0) := by
  cases hq : s.pdpPacketHeader packet with
  | none =>
      obtain rfl := Except.ok.inj ((dispatchWith_none hq).symm.trans h)
      exact ⟨fun _ _ => rfl, fun q h => by cases h⟩
  | some q =>
      have hself := (puts_of_header hq
        (some { q with info := { q.info with chanmask := 0 } })).self
      cases hvalid : pdpPacketImageIsvalid q with
      | false =>
          unfold dispatchWith pdpImageprocDispatch1buf at h
          rw [hq] at h
          dsimp only at h
          rw [hvalid, Bool.not_false, if_pos rfl] at h
          dsimp only at h
          rw [hq] at h
          dsimp only [runCalls] at h
          obtain ⟨q₁, _, hq₁, hputs⟩ := memcpyData_spec h
          obtain rfl := Option.some.inj (hq.symm.trans hq₁)
          refine ⟨fun y hy => hputs.other hy, fun q' hq' => ?_⟩
          obtain rfl := Option.some.inj hq'
          exact ⟨_, hputs.self, ⟨rfl, rfl, rfl, rfl, rfl⟩, fun hno => by
            rw [hvalid] at hno
            cases hno⟩
      | true =>
          unfold dispatchWith at h
          rw [dispatch1buf_valid hq hvalid] at h
          dsimp only at h
          rw [hself] at h
          dsimp only at h
          split at h
          · cases h
          · next data hcalls =>
              obtain ⟨q₁, hfits, hq₁, hputs⟩ := memcpyData_spec h
              obtain rfl := Option.some.inj (hself.symm.trans hq₁)
              have hboth := (puts_of_header hq
                (some { q with info := { q.info with chanmask := 0 } })).trans hputs
              refine ⟨fun y hy => hboth.other hy, fun q' hq' => ?_⟩
              obtain rfl := Option.some.inj hq'
              refine ⟨_, hboth.self, ⟨rfl, rfl, rfl, rfl, rfl⟩, fun _ hclear => ⟨?_, ?_⟩⟩
              · have hmask := hclear.chanmask
                show { q.info with chanmask := 0 } = q.info
                rw [← hmask]
              · obtain ⟨hlen, hall⟩ := runCalls_clear hclear hcalls
                have hbytes : (q.data.overwrite data hfits).bytes = data := by
                  show data ++ q.data.bytes.drop data.length = data
                  rw [hlen, List.drop_length, List.append_nil]
                show ∀ j < planeCount q.info,
                  Uniform (q.data.overwrite data hfits).bytes (planeCall [packet] q.info j) 0
                rw [hbytes]
                exact hall

theorem cleared_of_dispatch (hclear : ∀ q, s.pdpPacketHeader packet = some q →
      pdpPacketImageIsvalid q = true ∧ Clearable q.info)
    (h : dispatchWith pdpImageprocZeroProcess allChannels packet s = .ok s') :
    Cleared packet s' := by
  intro q' hq'
  cases hq : s.pdpPacketHeader packet with
  | none =>
      obtain rfl := Except.ok.inj ((dispatchWith_none hq).symm.trans h)
      cases hq.symm.trans hq'
  | some q =>
      obtain ⟨hvalid, hc⟩ := hclear q hq
      obtain ⟨q₁, hq₁, _, hzero⟩ := (dispatchZero_spec h).2 q hq
      obtain rfl := Option.some.inj (hq₁.symm.trans hq')
      obtain ⟨hinfo, huniform⟩ := hzero hvalid hc
      rw [hinfo]
      exact huniform

theorem dispatchZero_sameImage
    (h : dispatchWith pdpImageprocZeroProcess allChannels packet s = .ok s') {y : Int}
    (hq : s.pdpPacketHeader y = some q) :
    ∃ q', s'.pdpPacketHeader y = some q' ∧ SameImage q q' := by
  obtain ⟨hother, hself⟩ := dispatchZero_spec h
  by_cases hy : y = packet
  · subst hy
    obtain ⟨q', hq', hsame, _⟩ := hself q hq
    exact ⟨q', hq', hsame⟩
  · exact ⟨q, (hother y hy).trans hq, .refl q⟩

end Clearing

/-! ## Steps -/

section Steps

variable {x x' : Bqt} {s s' : Pool} {p0 : Int} {p : Packet}

/-- Images stay images of the same kind. -/
def KeepsImages (s s' : Pool) : Prop := ∀ y q, s.pdpPacketHeader y = some q →
  ∃ q', s'.pdpPacketHeader y = some q' ∧ SameImage q q'

theorem reset_keepsImages (h : pdpBqtReset x s = .ok s') : KeepsImages s s' := by
  unfold pdpBqtReset at h
  split at h
  · cases h
  · next s₁ hfirst =>
      intro y q hq
      obtain ⟨q₁, hq₁, hsame⟩ := dispatchZero_sameImage hfirst hq
      obtain ⟨q₂, hq₂, hsame'⟩ := dispatchZero_sameImage h hq₁
      exact ⟨q₂, hq₂, hsame.trans hsame'⟩

theorem reset_other (h : pdpBqtReset x s = .ok s') {y : Int} (h₁ : y ≠ x.xPacket1)
    (h₂ : y ≠ x.xPacket2) : s'.pdpPacketHeader y = s.pdpPacketHeader y := by
  unfold pdpBqtReset at h
  split at h
  · cases h
  · next s₁ hfirst =>
      exact ((dispatchZero_spec h).1 y h₂).trans ((dispatchZero_spec hfirst).1 y h₁)

theorem reset_cleared (hne : x.xPacket1 ≠ x.xPacket2)
    (hclear : ∀ y, y = x.xPacket1 ∨ y = x.xPacket2 → ∀ q, s.pdpPacketHeader y = some q →
      pdpPacketImageIsvalid q = true ∧ Clearable q.info) (h : pdpBqtReset x s = .ok s') :
    Cleared x.xPacket1 s' ∧ Cleared x.xPacket2 s' := by
  unfold pdpBqtReset at h
  split at h
  · cases h
  · next s₁ hfirst =>
      have hfirst' := cleared_of_dispatch (hclear _ (Or.inl rfl)) hfirst
      refine ⟨fun q hq => ?_, cleared_of_dispatch (fun q hq => ?_) h⟩
      · rw [(dispatchZero_spec h).1 _ hne] at hq
        exact hfirst' q hq
      · rw [(dispatchZero_spec hfirst).1 _ (Ne.symm hne)] at hq
        exact hclear _ (Or.inr rfl) q hq

theorem Compat.symm' {a b : Packet} (h : Compat a b) : Compat b a :=
  ⟨h.type.symm, h.encoding.symm, h.width.symm, h.height.symm⟩

theorem Compat.trans' {a b c : Packet} (h : Compat a b) (h' : Compat b c) : Compat a c :=
  ⟨⟨h.type.1, h'.type.2⟩, h.encoding.trans h'.encoding, h.width.trans h'.width,
    h.height.trans h'.height⟩

theorem Compat.same {a b b' : Packet} (h : Compat a b) (hb : SameImage b b') : Compat a b' :=
  ⟨⟨h.type.1, hb.type.trans h.type.2⟩, h.encoding.trans hb.encoding.symm,
    h.width.trans hb.width.symm, h.height.trans hb.height.symm⟩

theorem Compat.valid {a b : Packet} (h : Compat a b) (ha : pdpPacketImageIsvalid a = true) :
    pdpPacketImageIsvalid b = true := by
  unfold pdpPacketImageIsvalid at ha ⊢
  rw [h.type.1, h.encoding] at ha
  rw [h.type.2]
  exact ha

theorem Twins.keep (h : Twins x s) (hkeep : ∀ y, y = x.xPacket1 ∨ y = x.xPacket2 →
      ∀ q, s.pdpPacketHeader y = some q → ∃ q', s'.pdpPacketHeader y = some q' ∧ SameImage q q') :
    Twins x s' := by
  refine h.imp_right ?_
  rintro ⟨a, b, ha, hb, hne, hcompat, hua, hub⟩
  obtain ⟨a', ha', hsame⟩ := hkeep _ (Or.inl rfl) a ha
  obtain ⟨b', hb', hsame'⟩ := hkeep _ (Or.inr rfl) b hb
  exact ⟨a', b', ha', hb', hne, ((hcompat.same hsame').symm'.same hsame).symm',
    hsame.users.trans hua, hsame'.users.trans hub⟩

theorem settled_none (h : x.xPacket1 = -1) : Settled p0 x s := by
  refine Or.inr ?_
  have hno : pdpPacketImageCompat p0 x.xPacket1 s = false := by
    rw [h]
    by_contra hyes
    obtain ⟨_, _, _, hnone, _⟩ := pdpPacketImageCompat_iff.mp (Bool.eq_true_of_not_eq_false hyes)
    rw [header_neg_one] at hnone
    cases hnone
  unfold pdpBqtProcess pdpImageprocDispatch3buf
  rw [hno]
  rfl

/-- The state packets are released; the input is not one of them. -/
theorem header_afterRelease {y : Int} (h₁ : y ≠ x.xPacket1) (h₂ : y ≠ x.xPacket2) :
    (afterRelease x s).pdpPacketHeader y = s.pdpPacketHeader y := by
  have hone : ∀ {h : Int} {t : Pool}, y ≠ h →
      (pdpPacketMarkUnused h t).pdpPacketHeader y = t.pdpPacketHeader y := fun {h t} hne => by
    cases hq : t.pdpPacketHeader h with
    | none => rw [pdpPacketMarkUnused_none hq]
    | some q => rw [header_markUnused hq, if_neg hne]
  unfold afterRelease
  rw [hone h₂, hone h₁]

/-- The two clones: what they are for, when both calls have returned. -/
structure NewPair (reset : Bool) (p0 : Int) (p : Packet) (packet1 packet2 : Int) (s : Pool) :
    Prop where
  input : s.pdpPacketHeader p0 = some p
  other : p0 ≠ packet1 ∧ p0 ≠ packet2
  first : packet1 ≠ -1 → packet1 ≠ packet2 ∧ packet2 ≠ -1 ∧
    ∃ a, s.pdpPacketHeader packet1 = some a
  fits : ∀ y, y = packet1 ∨ y = packet2 → ∀ q, s.pdpPacketHeader y = some q →
    Compat p q ∧ q.users = 1 ∧ (reset = true → Clearable q.info)
  second : packet2 ≠ -1 → ∃ b, s.pdpPacketHeader packet2 = some b

theorem newPair_of_runs {s₀ s₁ s₂ : Pool} {packet1 packet2 : Int} {reset : Bool}
    (hp : s₀.pdpPacketHeader p0 = some p) (hu : p.users ≠ 0)
    (h₁ : (pdpPacketCloneRw p0).run s₀ = .ok (packet1, s₁))
    (h₂ : (pdpPacketCloneRw p0).run s₁ = .ok (packet2, s₂)) (hfit₀ : CloneFits reset s₀ p)
    (hfit₁ : CloneFits reset s₁ p) (hboth : packet1 ≠ -1 → packet2 ≠ -1) :
    NewPair reset p0 p packet1 packet2 s₂ := by
  have ho₁ := (ends_cloneOrigin hp hu).ok h₁
  have hp₁ := ho₁.keeps.used p0 p hp hu
  have ho₂ := (ends_cloneOrigin hp₁ hu).ok h₂
  have hp₂ := ho₂.keeps.used p0 p hp₁ hu
  -- A packet that was available is not the input, which is in use.
  have hne₁ : p0 ≠ packet1 := by
    rintro rfl
    by_cases hr : p0 = -1
    · rw [hr, header_neg_one] at hp
      cases hp
    · exact hu ((ho₁.packet hr).1 p hp)
  have hne₂ : p0 ≠ packet2 := by
    rintro rfl
    by_cases hr : p0 = -1
    · rw [hr, header_neg_one] at hp
      cases hp
    · exact hu ((ho₂.packet hr).1 p hp₁)
  have hfirst : packet1 ≠ -1 → ∃ a, s₁.pdpPacketHeader packet1 = some a ∧
      s₂.pdpPacketHeader packet1 = some a ∧ Compat p a ∧ a.users = 1 ∧
        (reset = true → Clearable a.info) := fun hr => by
    obtain ⟨_, a, ha, horigin⟩ := ho₁.packet hr
    have hfits := hfit₀ a horigin
    have hused : a.users ≠ 0 := by
      rw [hfits.2.1]
      exact Nat.one_ne_zero
    exact ⟨a, ha, ho₂.keeps.used _ a ha hused, hfits⟩
  have hsecond : packet2 ≠ -1 → Available s₁ packet2 ∧ ∃ b, s₂.pdpPacketHeader packet2 = some b ∧
      Compat p b ∧ b.users = 1 ∧ (reset = true → Clearable b.info) := fun hr => by
    obtain ⟨havailable, b, hb, horigin⟩ := ho₂.packet hr
    exact ⟨havailable, b, hb, hfit₁ b horigin⟩
  have hnone : ∀ {y q}, y = -1 → s₂.pdpPacketHeader y ≠ some q := fun {y q} hy hq => by
    rw [hy, header_neg_one] at hq
    cases hq
  refine ⟨hp₂, ⟨hne₁, hne₂⟩, fun hr => ?_, ?_, fun hr => ?_⟩
  · obtain ⟨a, ha, ha₂, _, hused, _⟩ := hfirst hr
    refine ⟨?_, hboth hr, a, ha₂⟩
    rintro rfl
    have hunused := (hsecond (hboth hr)).1 a ha
    omega
  · rintro y (rfl | rfl) q hq
    · obtain ⟨a, _, ha, hfits⟩ := hfirst fun hr => hnone hr hq
      obtain rfl := Option.some.inj (ha.symm.trans hq)
      exact hfits
    · obtain ⟨_, b, hb, hfits⟩ := hsecond fun hr => hnone hr hq
      obtain rfl := Option.some.inj (hb.symm.trans hq)
      exact hfits
  · obtain ⟨_, b, hb, _⟩ := hsecond hr
    exact ⟨b, hb⟩

/-- The state after two clones, and after they may have been cleared. -/
theorem NewPair.done {reset : Bool} {s₂ : Pool}
    (hpair : NewPair reset p0 p x.xPacket1 x.xPacket2 s₂) (hkeep : KeepsImages s₂ s')
    (hinput : s'.pdpPacketHeader p0 = s₂.pdpPacketHeader p0) : Twins x s' ∧ Settled p0 x s' := by
  by_cases hr : x.xPacket1 = -1
  · exact ⟨Or.inl hr, settled_none hr⟩
  · obtain ⟨hne, hr₂, a, ha⟩ := hpair.first hr
    obtain ⟨b, hb⟩ := hpair.second hr₂
    obtain ⟨hpa, hua, _⟩ := hpair.fits _ (Or.inl rfl) a ha
    obtain ⟨hpb, hub, _⟩ := hpair.fits _ (Or.inr rfl) b hb
    obtain ⟨a', ha', hsame⟩ := hkeep _ a ha
    obtain ⟨b', hb', hsame'⟩ := hkeep _ b hb
    have hpa' := hpa.same hsame
    have hpb' := hpb.same hsame'
    have hua' := hsame.users.trans hua
    have hub' := hsame'.users.trans hub
    exact ⟨Or.inr ⟨a', b', ha', hb', hne, hpa'.symm'.trans' hpb', hua', hub'⟩,
      Or.inl ⟨p, a', b', hinput.trans hpair.input, ha', hb', hne, hpa', hpb', hua', hub'⟩⟩

/-- Two clones are clear after `pdp_bqt_reset`, if there are any. -/
theorem NewPair.cleared (hpair : NewPair true p0 p x.xPacket1 x.xPacket2 s)
    (hvalid : pdpPacketImageIsvalid p = true) (h : pdpBqtReset x s = .ok s') :
    Cleared x.xPacket1 s' ∧ Cleared x.xPacket2 s' := by
  by_cases hne : x.xPacket1 = x.xPacket2
  · -- Then neither of them has been made.
    have hnone : x.xPacket1 = -1 := by
      by_contra hr
      exact (hpair.first hr).1 hne
    have hempty : ∀ q, s'.pdpPacketHeader (-1) ≠ some q := fun q hq => by
      rw [header_neg_one] at hq
      cases hq
    rw [← hne, hnone]
    exact ⟨fun q hq => absurd hq (hempty q), fun q hq => absurd hq (hempty q)⟩
  · refine reset_cleared hne (fun y hy q hq => ?_) h
    obtain ⟨hpq, _, hclear⟩ := hpair.fits y hy q hq
    exact ⟨hpq.valid hvalid, hclear rfl⟩

/-- Twins are what they should be for an image with which the first one is compatible. -/
theorem Twins.settled (h : Twins x s) (hcompat : pdpPacketImageCompat p0 x.xPacket1 s = true) :
    Settled p0 x s := by
  obtain ⟨q, a, hq, ha, hqa⟩ := pdpPacketImageCompat_iff.mp hcompat
  rcases h with hnone | ⟨a', b, ha', hb, hne, hab, hua, hub⟩
  · rw [hnone, header_neg_one] at ha
    cases ha
  · obtain rfl := Option.some.inj (ha.symm.trans ha')
    exact Or.inl ⟨q, a, b, hq, ha, hb, hne, hqa, hqa.trans' hab, hua, hub⟩

/-- What `pdp_bqt_preproc` does: nothing, or two clones, which it clears if that is wanted. -/
theorem preproc_cases (hrun : pdpBqtPreproc p0 x s = .ok (x', s')) :
    (pdpPacketImageCompat p0 x.xPacket1 s = true ∧ x' = x ∧ s' = s) ∨
    (Recreates p0 x s ∧ ∃ packet1 s₁ packet2 s₂,
      (pdpPacketCloneRw p0).run (afterRelease x s) = .ok (packet1, s₁) ∧
      (pdpPacketCloneRw p0).run s₁ = .ok (packet2, s₂) ∧
      x' = { x with xPacket1 := packet1, xPacket2 := packet2 } ∧
      ((x.xResetOnFormatchange = true ∧ pdpBqtReset x' s₂ = .ok s') ∨
        (x.xResetOnFormatchange ≠ true ∧ s' = s₂))) := by
  unfold pdpBqtPreproc at hrun
  rw [Bool.and_self] at hrun
  cases hcompat : pdpPacketImageCompat p0 x.xPacket1 s with
  | true =>
      rw [hcompat, Bool.not_true, if_neg Bool.false_ne_true] at hrun
      cases hrun
      exact Or.inl ⟨rfl, rfl, rfl⟩
  | false =>
      rw [hcompat, Bool.not_false, if_pos rfl] at hrun
      change (match (pdpPacketCloneRw p0).run (afterRelease x s) with
        | .error e => _
        | .ok (packet1, s) => _) = _ at hrun
      refine Or.inr ⟨hcompat, ?_⟩
      split at hrun
      · cases hrun
      · next packet1 s₁ h₁ =>
          split at hrun
          · cases hrun
          · next packet2 s₂ h₂ =>
              refine ⟨packet1, s₁, packet2, s₂, h₁, h₂, ?_⟩
              dsimp only at hrun
              split at hrun
              · next hreset =>
                  split at hrun
                  · cases hrun
                  · next s₃ h₃ =>
                      cases hrun
                      exact ⟨rfl, Or.inl ⟨hreset, h₃⟩⟩
              · next hreset =>
                  cases hrun
                  exact ⟨rfl, Or.inr ⟨hreset, rfl⟩⟩

/-- What `pdp_bqt_preproc` preserves, and what it is for. -/
theorem preproc_step (hrec : Arrived p0 p x s) (htwins : Twins x s) (hfit : ClonesFit p0 x s)
    (hrun : pdpBqtPreproc p0 x s = .ok (x', s')) : Twins x' s' ∧ Settled p0 x' s' ∧
      (Recreates p0 x s → x.xResetOnFormatchange = true →
        Cleared x'.xPacket1 s' ∧ Cleared x'.xPacket2 s') := by
  rcases preproc_cases hrun with
    ⟨hcompat, rfl, rfl⟩ | ⟨hnew, packet1, s₁, packet2, s₂, h₁, h₂, rfl, hreset⟩
  · exact ⟨htwins, htwins.settled hcompat, fun hno => by cases hcompat.symm.trans hno⟩
  · obtain ⟨hfit₀, hrest⟩ := hfit hnew p hrec.header
    obtain ⟨hfit₁, hboth⟩ := hrest packet1 s₁ h₁
    have hp₀ : (afterRelease x s).pdpPacketHeader p0 = some p :=
      (header_afterRelease hrec.other.1 hrec.other.2).trans hrec.header
    have hpair := newPair_of_runs hp₀ hrec.users h₁ h₂ hfit₀ hfit₁
      fun hr => hboth hr packet2 s₂ h₂
    rcases hreset with ⟨hwanted, h₃⟩ | ⟨hunwanted, rfl⟩
    · rw [hwanted] at hpair
      have hinput := reset_other h₃ hpair.other.1 hpair.other.2
      have hdone := NewPair.done (x := { x with xPacket1 := packet1, xPacket2 := packet2 }) hpair
        (reset_keepsImages h₃) hinput
      have hcleared := NewPair.cleared
        (x := { x with xPacket1 := packet1, xPacket2 := packet2 }) hpair hrec.valid h₃
      exact ⟨hdone.1, hdone.2, fun _ _ => hcleared⟩
    · have hdone := NewPair.done (x := { x with xPacket1 := packet1, xPacket2 := packet2 }) hpair
        (fun _ q hq => ⟨q, hq, .refl q⟩) rfl
      exact ⟨hdone.1, hdone.2, fun _ hwanted => absurd hwanted hunwanted⟩

/-- In every run in which the clones fit, the state packets are twins. -/
theorem twins_of_run (h : BqtRun ClonesFit x s) : Twins x s := by
  induction h with
  | new reset mask s => exact Or.inl rfl
  | preproc _ hrec hfit hrun ih => exact (preproc_step hrec ih hfit hrun).1
  | reset _ hreset ih => exact ih.keep fun y _ q hq => reset_keepsImages hreset y q hq
  | config reset mask _ ih => exact ih
  | others _ hleaves ih =>
      refine ih.keep fun y hy q hq => ?_
      obtain ⟨q', hq', hmeta, husers⟩ := hleaves y hy q hq
      refine ⟨q', hq', ?_, ?_, ?_, ?_, husers⟩
      · exact congrArg Meta.type hmeta
      · exact congrArg (fun m => m.info.encoding) hmeta
      · exact congrArg (fun m => m.info.width) hmeta
      · exact congrArg (fun m => m.info.height) hmeta

/-- In every run in which the clones fit, each `pdp_bqt_preproc` for which they fit leaves two
state packets for its input or nothing to process, and clears what it has made. -/
theorem bqt_preprocRight (h : BqtRun ClonesFit x s) (hrec : Arrived p0 p x s)
    (hfit : ClonesFit p0 x s) : PreprocRight p0 x s :=
  fun _ _ hrun => (preproc_step hrec (twins_of_run h) hfit hrun).2

end Steps

/-! ## One image -/

theorem roomForTwo_size_pos : 0 < ([some greyPixel, none, none] : List (Option Packet)).length :=
  Nat.succ_pos 2

/-- A pool without classes, with a grey image and room for two more. -/
def roomForTwo (malloc : Nat → Option (Nat → UInt8)) : Pool where
  pdpPool := [some greyPixel, none, none]
  reusefifo := fun _ => []
  classList := []
  malloc := malloc
  mallocs := 0
  size_pos := roomForTwo_size_pos

theorem arrived_greyPixel {malloc : Nat → Option (Nat → UInt8)} {reset : Bool} {mask : Nat} :
    Arrived 0 greyPixel ⟨-1, -1, reset, mask⟩ (roomForTwo malloc) :=
  ⟨rfl, rfl, by decide, (by decide : (0 : Int) ≠ -1), (by decide : (0 : Int) ≠ -1)⟩

/-- Without classes and unused packets the clones are copies of the header. -/
theorem cloneFits_greyPixel {s : Pool} (hclasses : s.classList = [])
    (hused : ∀ o ∈ s.pdpPool, o.all (·.users ≠ 0) = true) : CloneFits true s greyPixel := by
  rintro q ((⟨_, hx, hu, _, _⟩ | ⟨_, hb, _⟩) | ⟨_, hmeta, husers⟩)
  · have hall := hused _ (mem_of_header hx)
    rw [Option.all_some, decide_eq_true_eq] at hall
    exact absurd hu hall
  · rw [hclasses] at hb
    cases hb
  · have hinfo : q.info = greyPixel.info := congrArg Meta.info hmeta
    refine ⟨⟨⟨rfl, congrArg Meta.type hmeta⟩, ?_, ?_, ?_⟩, husers, fun _ => ⟨?_, ?_, ?_⟩⟩
    · rw [hinfo]
    · rw [hinfo]
    · rw [hinfo]
    · rw [hinfo]
      rfl
    · rw [hinfo]
      decide
    · rw [hinfo]
      decide

theorem bqt_preprocRight_greyPixel :
    PreprocRight 0 ⟨-1, -1, true, 1⟩ (roomForTwo zeroHeap) := by
  refine bqt_preprocRight (.new true 1 (roomForTwo zeroHeap)) arrived_greyPixel ?_
  rintro _ q hq
  obtain rfl := Option.some.inj ((show _ = some greyPixel from rfl).symm.trans hq)
  refine ⟨cloneFits_greyPixel rfl (by decide), fun packet1 s₁ h₁ => ?_⟩
  have hfirst : (pdpPacketCloneRw 0).run (afterRelease ⟨-1, -1, true, 1⟩ (roomForTwo zeroHeap)) =
      .ok (1, _) := rfl
  cases hfirst.symm.trans h₁
  refine ⟨cloneFits_greyPixel rfl (by decide), fun _ packet2 s₂ h₂ => ?_⟩
  cases h₂
  decide

/-- The heap has room for one packet. -/
def heapForOne (k : Nat) : Option (Nat → UInt8) := if k = 0 then some fun _ => 0 else none

/-- The first clone is made, the second one is not, and the image is processed with a state packet
that is not there. -/
theorem not_bqt_preprocRight : ¬ ∀ x s p0 p, BqtRun (fun _ _ _ => True) x s →
    Arrived p0 p x s → PreprocRight p0 x s := by
  intro hall
  have hright := hall ⟨-1, -1, false, 1⟩ (roomForTwo heapForOne) 0 greyPixel (.new _ _ _)
    arrived_greyPixel
  obtain ⟨hsettled, _⟩ := hright _ _ rfl
  rcases hsettled with ⟨_, _, b, _, _, hb, _⟩ | hnothing
  · cases hb
  · have hcalls := congrArg Prod.fst hnothing
    exact absurd hcalls (by decide)

end PureDataPacket
