/-
# `PureDataPacket.Net.SendRing` — the packets that wait to be sent

`pdp_netsend` has four slots between the Pd thread, which stores a reference to
a packet for every *register_ro*, and the thread that sends.  A slot is empty
when it is -1.  Each thread has an index of its own, and neither takes a lock for
the slots: what keeps the two indices in step is that a slot is filled before
the one index moves on and emptied before the other does.

`pdp_packet_copy_ro` returns -1 for what is no packet.  This is stored like a
packet, and the index moves on: the slot stays empty, the thread that sends waits
at it, and what is stored after it is stuck.

Every access to a slot is a step, and so is every call of the packet pool, in
which other objects may change anything between two steps.  The signals between
the threads are left out; a thread that waits may look at its slot at any time.

| | |
| :-- | :-- |
| `InOrder` | what the ring is for |
| `Counted` | what holds in every run, whatever comes |
| `Window` | where the packets are |
| `Ordered` | the invariant when every copy is of a packet |
-/
import PureDataPacket.Kernel.PoolSpec
import PureDataPacket.Lib.Cells

namespace PureDataPacket

/-- `x_nb_packets`. -/
def nbPackets : Nat := 4

/-- Where the Pd thread is in `pdp_udp_send_input_0`. -/
inductive FeederAt where
  | idle
  /-- the slot was empty, before `pdp_packet_copy_ro(p)` -/
  | copying (p : Int)
  /-- before `my_p` is stored -/
  | storing (myP : Int)
deriving DecidableEq

/-- Where the other thread is in `send_thread`. -/
inductive SenderAt where
  /-- in `_wait_for_feeder` -/
  | waiting
  /-- the slot was not empty -/
  | sending
  /-- before `pdp_packet_mark_unused` -/
  | removing
  /-- before the slot is emptied -/
  | clearing
  /-- before the index moves on -/
  | advancing
deriving DecidableEq

/-- `t_pdp_udp_send` and both threads.  The last three fields are read by nothing. -/
structure SendRing where
  xPacket : Nat → Int
  xReadPacket : Nat
  xWritePacket : Nat
  xDrop : Nat
  pool : Pool
  feeder : FeederAt
  sender : SenderAt
  /-- the packets that were stored -/
  accepted : List Int
  /-- the packets that were taken out, and whether there was something to transmit -/
  taken : List (Int × Bool)
  /-- the references that the object owns -/
  refs : List Int

namespace SendRing

/-- `pdp_udp_send_new`. -/
def new (pool : Pool) : SendRing where
  xPacket := fun _ => -1
  xReadPacket := 0
  xWritePacket := 0
  xDrop := 0
  pool := pool
  feeder := .idle
  sender := .waiting
  accepted := []
  taken := []
  refs := []

/-- One step of a thread, or of other objects. -/
inductive Act where
  /-- other objects do anything to the pool -/
  | others (pool : Pool)
  /-- *register_ro* -/
  | registerRo (p : Int)
  | copy
  | store
  | feed
  | send
  | remove
  | clear
  | advance

/-- A header, data and a description: there is something to transmit. -/
def transmits (pool : Pool) (p : Int) : Bool :=
  match pool.pdpPacketHeader p with
  | none => false
  | some header => header.desc.isSome

/-- The slot of the thread that sends. -/
def current (s : SendRing) : Int := s.xPacket s.xReadPacket

/-- What a step does; `none` if it is not the one that comes next. -/
def step (s : SendRing) : Act → Option SendRing
  | .others pool => some { s with pool := pool }
  | .registerRo p =>
      if s.feeder = .idle then
        if s.xPacket s.xWritePacket = -1 then some { s with feeder := .copying p }
        else some { s with xDrop := s.xDrop + 1 }
      else none
  | .copy =>
      match s.feeder with
      | .copying p =>
          let (myP, pool) := pdpPacketCopyRo p s.pool
          some { s with
            pool := pool
            feeder := .storing myP
            refs := if myP = -1 then s.refs else myP :: s.refs }
      | _ => none
  | .store =>
      match s.feeder with
      | .storing myP =>
          some { s with
            xPacket := Function.update s.xPacket s.xWritePacket myP
            xWritePacket := (s.xWritePacket + 1) % nbPackets
            feeder := .idle
            accepted := if myP = -1 then s.accepted else s.accepted ++ [myP] }
      | _ => none
  | .feed =>
      if s.sender = .waiting ∧ s.current ≠ -1 then some { s with sender := .sending } else none
  | .send =>
      if s.sender = .sending then
        some { s with
          sender := .removing
          taken := s.taken ++ [(s.current, transmits s.pool s.current)] }
      else none
  | .remove =>
      if s.sender = .removing then
        some { s with
          pool := pdpPacketMarkUnused s.current s.pool
          refs := s.refs.erase s.current
          sender := .clearing }
      else none
  | .clear =>
      if s.sender = .clearing then
        some { s with
          xPacket := Function.update s.xPacket s.xReadPacket (-1)
          sender := .advancing }
      else none
  | .advance =>
      if s.sender = .advancing then
        some { s with
          xReadPacket := (s.xReadPacket + 1) % nbPackets
          sender := .waiting }
      else none

/-- What comes to be copied is a packet. -/
def CopiesPacket (s : SendRing) : Act → Prop
  | .copy => ∀ p, s.feeder = .copying p → s.pool.pdpPacketHeader p ≠ none
  | _ => True

/-- The states of runs whose steps all meet a condition. -/
inductive Run (ok : SendRing → Act → Prop) : SendRing → Prop
  | new (pool : Pool) : Run ok (new pool)
  | step {s s' : SendRing} {a : Act} (hs : Run ok s) (ha : ok s a) (h : s.step a = some s') :
      Run ok s'

def slots (f : Nat → Int) : List Int := (List.range nbPackets).map f

/-- The slot still has `p`, but its reference is released. -/
def released (s : SendRing) (p : Int) : Nat :=
  if s.sender = .clearing ∧ s.current = p then 1 else 0

/-- There is a reference to `p`, but the slot does not have it yet. -/
def inHand (s : SendRing) (p : Int) : Nat := if s.feeder = .storing p then 1 else 0

/-- What the ring is for. -/
structure InOrder (s : SendRing) : Prop where
  /-- what has been taken out is what came first -/
  taken : s.taken.map Prod.fst <+: s.accepted
  /-- every other accepted packet is in its slot -/
  kept : ∀ i p, s.taken.length ≤ i → s.accepted[i]? = some p → s.xPacket (i % nbPackets) = p
  /-- one reference for each slot that is not empty; one is released before its slot is
  emptied, and one is there before its slot is filled -/
  oneReference : ∀ p, p ≠ -1 →
    s.refs.count p + s.released p = (slots s.xPacket).count p + s.inHand p
  /-- nobody waits at an empty slot while another one is not empty -/
  noGap : s.sender = .waiting → s.current = -1 → ∀ i < nbPackets, s.xPacket i = -1

/-! ## References -/

section Slots

variable {f : Nat → Int} {i : Nat}

theorem count_slots_update (hi : i < nbPackets) (p v : Int) :
    (slots (Function.update f i v)).count p + (if f i = p then 1 else 0) =
      (slots f).count p + if v = p then 1 else 0 := by
  have h := count_flatMap_range (f := fun j => [f j]) (g := fun j => [Function.update f i v j])
    (i := i) (fun j hj => by rw [Function.update_of_ne hj]) nbPackets p
  simp only [hi, if_true, Function.update_self, List.count_singleton, beq_iff_eq,
    ← List.map_eq_flatMap] at h
  exact h

end Slots

/-- What holds in every run, whatever comes. -/
structure Counted (s : SendRing) : Prop where
  read_lt : s.xReadPacket < nbPackets
  write_lt : s.xWritePacket < nbPackets
  /-- the slot that is going to be filled is empty -/
  free : s.feeder ≠ .idle → s.xPacket s.xWritePacket = -1
  /-- the packet that is being sent is still in its slot -/
  busy : s.sender ≠ .waiting → s.sender ≠ .advancing → s.current ≠ -1
  oneReference : ∀ p, p ≠ -1 →
    s.refs.count p + s.released p = (slots s.xPacket).count p + s.inHand p

theorem counted_new (pool : Pool) : Counted (new pool) where
  read_lt := Nat.succ_pos 3
  write_lt := Nat.succ_pos 3
  free := fun h => absurd rfl h
  busy := fun h => absurd rfl h
  oneReference := fun p hp => by
    show 0 + 0 = List.count p [-1, -1, -1, -1] + 0
    rw [List.count_eq_zero.mpr (by simpa using hp)]

theorem copy_eq_neg_one {p : Int} {pool : Pool} :
    (pdpPacketCopyRo p pool).1 = -1 ↔ pool.pdpPacketHeader p = none := by
  cases hp : pool.pdpPacketHeader p with
  | none => exact iff_of_true (by rw [pdpPacketCopyRo_none hp]) rfl
  | some header =>
      refine iff_of_false (fun he => ?_) (Option.some_ne_none header)
      rw [pdpPacketCopyRo_eq hp] at he
      rw [show p = -1 from he] at hp
      cases hp

theorem copy_of_header {p : Int} {pool : Pool} (h : pool.pdpPacketHeader p ≠ none) :
    (pdpPacketCopyRo p pool).1 = p := by
  obtain ⟨header, hp⟩ := Option.ne_none_iff_exists'.mp h
  rw [pdpPacketCopyRo_eq hp]

/-- What a step is, with what it does. -/
inductive Steps (s : SendRing) : Act → SendRing → Prop
  | others (pool : Pool) : Steps s (.others pool) { s with pool := pool }
  | accept (p : Int) (h : s.feeder = .idle) (hfree : s.xPacket s.xWritePacket = -1) :
      Steps s (.registerRo p) { s with feeder := .copying p }
  | drop (p : Int) (h : s.feeder = .idle) : Steps s (.registerRo p) { s with xDrop := s.xDrop + 1 }
  | copy (p : Int) (h : s.feeder = .copying p) : Steps s .copy { s with
      pool := (pdpPacketCopyRo p s.pool).2
      feeder := .storing (pdpPacketCopyRo p s.pool).1
      refs := if (pdpPacketCopyRo p s.pool).1 = -1 then s.refs
        else (pdpPacketCopyRo p s.pool).1 :: s.refs }
  | store (p : Int) (h : s.feeder = .storing p) : Steps s .store { s with
      xPacket := Function.update s.xPacket s.xWritePacket p
      xWritePacket := (s.xWritePacket + 1) % nbPackets
      feeder := .idle
      accepted := if p = -1 then s.accepted else s.accepted ++ [p] }
  | feed (h : s.sender = .waiting) (hbusy : s.current ≠ -1) :
      Steps s .feed { s with sender := .sending }
  | send (h : s.sender = .sending) : Steps s .send { s with
      sender := .removing
      taken := s.taken ++ [(s.current, transmits s.pool s.current)] }
  | remove (h : s.sender = .removing) : Steps s .remove { s with
      pool := pdpPacketMarkUnused s.current s.pool
      refs := s.refs.erase s.current
      sender := .clearing }
  | clear (h : s.sender = .clearing) : Steps s .clear { s with
      xPacket := Function.update s.xPacket s.xReadPacket (-1)
      sender := .advancing }
  | advance (h : s.sender = .advancing) : Steps s .advance { s with
      xReadPacket := (s.xReadPacket + 1) % nbPackets
      sender := .waiting }

theorem step_cases {s s' : SendRing} {a : Act} (h : s.step a = some s') : Steps s a s' := by
  cases a with
  | others pool =>
      cases h
      exact .others pool
  | registerRo p =>
      simp only [SendRing.step] at h
      split at h
      · next hidle =>
          split at h
          · next hfree =>
              cases h
              exact .accept p hidle hfree
          · cases h
            exact .drop p hidle
      · cases h
  | copy =>
      simp only [SendRing.step] at h
      split at h
      · next p hp =>
          cases h
          exact .copy p hp
      · cases h
  | store =>
      simp only [SendRing.step] at h
      split at h
      · next p hp =>
          cases h
          exact .store p hp
      · cases h
  | feed =>
      simp only [SendRing.step] at h
      split at h
      · next hw =>
          cases h
          exact .feed hw.1 hw.2
      · cases h
  | send =>
      simp only [SendRing.step] at h
      split at h
      · next hw =>
          cases h
          exact .send hw
      · cases h
  | remove =>
      simp only [SendRing.step] at h
      split at h
      · next hw =>
          cases h
          exact .remove hw
      · cases h
  | clear =>
      simp only [SendRing.step] at h
      split at h
      · next hw =>
          cases h
          exact .clear hw
      · cases h
  | advance =>
      simp only [SendRing.step] at h
      split at h
      · next hw =>
          cases h
          exact .advance hw
      · cases h

theorem Counted.copy {s : SendRing} (hs : Counted s) (p : Int) (h : s.feeder = .copying p) :
    Counted { s with
      pool := (pdpPacketCopyRo p s.pool).2
      feeder := .storing (pdpPacketCopyRo p s.pool).1
      refs := if (pdpPacketCopyRo p s.pool).1 = -1 then s.refs
        else (pdpPacketCopyRo p s.pool).1 :: s.refs } := by
  have hfree := hs.free (by rw [h]; exact fun he => by cases he)
  refine ⟨hs.read_lt, hs.write_lt, fun _ => hfree, hs.busy, fun q hq => ?_⟩
  have hone := hs.oneReference q hq
  have hnone : s.inHand q = 0 := if_neg (by rw [h]; exact fun he => by cases he)
  generalize (pdpPacketCopyRo p s.pool).1 = r
  show List.count q (if r = -1 then s.refs else r :: s.refs) + s.released q =
    (slots s.xPacket).count q + if FeederAt.storing r = .storing q then 1 else 0
  rw [count_received s.refs r hq]
  simp only [FeederAt.storing.injEq]
  omega

theorem Counted.store {s : SendRing} (hs : Counted s) (p : Int) (h : s.feeder = .storing p) :
    Counted { s with
      xPacket := Function.update s.xPacket s.xWritePacket p
      xWritePacket := (s.xWritePacket + 1) % nbPackets
      feeder := .idle
      accepted := if p = -1 then s.accepted else s.accepted ++ [p] } := by
  have hfree := hs.free (by rw [h]; exact fun he => by cases he)
  have hkeep : s.current ≠ -1 →
      Function.update s.xPacket s.xWritePacket p s.xReadPacket = s.current := fun hbusy =>
    Function.update_of_ne (fun he => hbusy (by rw [current, he, hfree])) ..
  refine ⟨hs.read_lt, Nat.mod_lt _ (Nat.succ_pos 3), fun hne => absurd rfl hne, fun h₁ h₂ => ?_,
    fun q hq => ?_⟩
  · have hbusy := hs.busy h₁ h₂
    show Function.update s.xPacket s.xWritePacket p s.xReadPacket ≠ -1
    rwa [hkeep hbusy]
  · have hone := hs.oneReference q hq
    have hcount := count_slots_update (f := s.xPacket) hs.write_lt q p
    rw [hfree, if_neg (Ne.symm hq)] at hcount
    have hhand : s.inHand q = if p = q then 1 else 0 := by
      unfold inHand
      rw [h]
      simp only [FeederAt.storing.injEq]
    -- a slot whose reference has been released is not the one that is filled
    have hreleased : (if s.sender = .clearing ∧
        Function.update s.xPacket s.xWritePacket p s.xReadPacket = q then 1 else 0) =
        s.released q := by
      unfold released
      by_cases hc : s.sender = .clearing
      · have hbusy := hs.busy (by rw [hc]; decide) (by rw [hc]; decide)
        rw [hkeep hbusy]
      · rw [if_neg (fun h => hc h.1), if_neg (fun h => hc h.1)]
    show s.refs.count q + (if s.sender = .clearing ∧
        Function.update s.xPacket s.xWritePacket p s.xReadPacket = q then 1 else 0) =
      (slots (Function.update s.xPacket s.xWritePacket p)).count q + 0
    rw [hreleased]
    omega

theorem Counted.remove {s : SendRing} (hs : Counted s) (h : s.sender = .removing) :
    Counted { s with
      pool := pdpPacketMarkUnused s.current s.pool
      refs := s.refs.erase s.current
      sender := .clearing } := by
  have hbusy := hs.busy (by rw [h]; decide) (by rw [h]; decide)
  refine ⟨hs.read_lt, hs.write_lt, hs.free, fun _ _ => hbusy, fun q hq => ?_⟩
  have hone := hs.oneReference q hq
  have hnone : s.released q = 0 := if_neg (by rw [h]; exact fun he => by cases he.1)
  have hmem : s.current ∈ slots s.xPacket :=
    List.mem_map.mpr ⟨_, List.mem_range.mpr hs.read_lt, rfl⟩
  have hpos := List.count_pos_iff.mpr hmem
  show (s.refs.erase s.current).count q +
      (if SenderAt.clearing = .clearing ∧ s.current = q then 1 else 0) =
    (slots s.xPacket).count q + s.inHand q
  rw [List.count_erase]
  simp only [beq_iff_eq, true_and]
  by_cases hq' : s.current = q
  · rw [hq'] at hpos ⊢
    simp only [if_true]
    omega
  · simp only [hq', if_false]
    omega

theorem Counted.clear {s : SendRing} (hs : Counted s) (h : s.sender = .clearing) :
    Counted { s with
      xPacket := Function.update s.xPacket s.xReadPacket (-1)
      sender := .advancing } := by
  have hbusy := hs.busy (by rw [h]; decide) (by rw [h]; decide)
  refine ⟨hs.read_lt, hs.write_lt, fun hf => ?_, fun _ hne => absurd rfl hne, fun q hq => ?_⟩
  · have hfree := hs.free hf
    show Function.update s.xPacket s.xReadPacket (-1) s.xWritePacket = -1
    rw [Function.update_of_ne fun he => hbusy (by rw [current, ← he, hfree])]
    exact hfree
  · have hone := hs.oneReference q hq
    have hcount := count_slots_update (f := s.xPacket) hs.read_lt q (-1)
    have hreleased : s.released q = if s.current = q then 1 else 0 := by
      unfold released
      rw [h]
      simp only [true_and]
    rw [if_neg (Ne.symm hq)] at hcount
    show s.refs.count q + 0 = (slots (Function.update s.xPacket s.xReadPacket (-1))).count q +
      s.inHand q
    rw [hreleased] at hone
    unfold current at hone
    omega

theorem Counted.step {s s' : SendRing} {a : Act} (hs : Counted s) (h : Steps s a s') :
    Counted s' := by
  cases h with
  | others pool => exact ⟨hs.read_lt, hs.write_lt, hs.free, hs.busy, hs.oneReference⟩
  | accept p h hfree =>
      refine ⟨hs.read_lt, hs.write_lt, fun _ => hfree, hs.busy, fun q hq => ?_⟩
      have hone := hs.oneReference q hq
      have hnone : s.inHand q = 0 := if_neg (by rw [h]; exact fun he => by cases he)
      rw [hnone] at hone
      exact hone
  | drop p h => exact ⟨hs.read_lt, hs.write_lt, hs.free, hs.busy, hs.oneReference⟩
  | copy p h => exact hs.copy p h
  | store p h => exact hs.store p h
  | feed h hbusy =>
      refine ⟨hs.read_lt, hs.write_lt, hs.free, fun _ _ => hbusy, fun q hq => ?_⟩
      have hone := hs.oneReference q hq
      have hnone : s.released q = 0 := if_neg (by rw [h]; exact fun he => by cases he.1)
      rw [hnone] at hone
      exact hone
  | send h =>
      have hbusy := hs.busy (by rw [h]; decide) (by rw [h]; decide)
      refine ⟨hs.read_lt, hs.write_lt, hs.free, fun _ _ => hbusy, fun q hq => ?_⟩
      have hone := hs.oneReference q hq
      have hnone : s.released q = 0 := if_neg (by rw [h]; exact fun he => by cases he.1)
      rw [hnone] at hone
      exact hone
  | remove h => exact hs.remove h
  | clear h => exact hs.clear h
  | advance h =>
      refine ⟨Nat.mod_lt _ (Nat.succ_pos 3), hs.write_lt, hs.free, fun hne => absurd rfl hne,
        fun q hq => ?_⟩
      have hone := hs.oneReference q hq
      have hnone : s.released q = 0 := if_neg (by rw [h]; exact fun he => by cases he.1)
      rw [hnone] at hone
      exact hone

/-! ## The order of the packets -/

/-- How often the index of the thread that sends has moved on. -/
def retired (s : SendRing) : Nat :=
  match s.sender with
  | .waiting => s.taken.length
  | .sending => s.taken.length
  | .removing => s.taken.length - 1
  | .clearing => s.taken.length - 1
  | .advancing => s.taken.length - 1

/-- How many slots have been emptied. -/
def front (s : SendRing) : Nat :=
  match s.sender with
  | .waiting => s.taken.length
  | .sending => s.taken.length
  | .removing => s.taken.length - 1
  | .clearing => s.taken.length - 1
  | .advancing => s.taken.length

/-- The packets from `first` on are in the slots, each in its own, and the other
slots are empty. -/
structure Window (f : Nat → Int) (accepted : List Int) (first : Nat) : Prop where
  first_le : first ≤ accepted.length
  le_first : accepted.length ≤ first + nbPackets
  filled : ∀ k p, first ≤ k → accepted[k]? = some p → f (k % nbPackets) = p
  empty : ∀ k, accepted.length ≤ k → k < first + nbPackets → f (k % nbPackets) = -1

/-- In a row of as many numbers as there are slots each has a slot of its own. -/
theorem slot_ne {first j k : Nat} (hj : first ≤ j) (hjk : j < k) (hk : k < first + nbPackets) :
    j % nbPackets ≠ k % nbPackets := by
  unfold nbPackets at *
  omega

section Window

variable {f : Nat → Int} {accepted : List Int} {first : Nat}

theorem Window.first_lt (hw : Window f accepted first) (hbusy : f (first % nbPackets) ≠ -1) :
    first < accepted.length := by
  refine Nat.lt_of_le_of_ne hw.first_le fun he => hbusy ?_
  exact hw.empty first (Nat.le_of_eq he.symm) (by unfold nbPackets; omega)

/-- The slot after the last packet is empty only if there is room. -/
theorem Window.room (hw : Window f accepted first) (hvalid : ∀ p ∈ accepted, p ≠ -1)
    (hfree : f (accepted.length % nbPackets) = -1) : accepted.length < first + nbPackets := by
  refine Nat.lt_of_le_of_ne hw.le_first fun he => ?_
  have hlt : first < accepted.length := by
    unfold nbPackets at he
    omega
  have hslot : accepted.length % nbPackets = first % nbPackets := by
    unfold nbPackets at *
    omega
  have hfirst := hw.filled first _ (Nat.le_refl _) (List.getElem?_eq_getElem hlt)
  rw [hslot, hfirst] at hfree
  exact hvalid _ (List.getElem_mem hlt) hfree

theorem Window.store (hw : Window f accepted first) (p : Int)
    (hroom : accepted.length < first + nbPackets) :
    Window (Function.update f (accepted.length % nbPackets) p) (accepted ++ [p]) first := by
  have hlen : (accepted ++ [p]).length = accepted.length + 1 := by
    rw [List.length_append, List.length_singleton]
  have hle := hw.first_le
  refine ⟨by omega, by omega, fun k q hk hq => ?_, fun k hk hlt => ?_⟩
  · have hk' : k < accepted.length + 1 := by
      rw [← hlen]
      exact (List.getElem?_eq_some_iff.mp hq).1
    rcases Nat.lt_succ_iff_lt_or_eq.mp hk' with hlt | rfl
    · rw [Function.update_of_ne (slot_ne hk hlt hroom)]
      rw [List.getElem?_append_left hlt] at hq
      exact hw.filled k q hk hq
    · rw [List.getElem?_concat_length] at hq
      rw [Function.update_self]
      exact Option.some.inj hq
  · rw [hlen] at hk
    rw [Function.update_of_ne (slot_ne hle hk hlt).symm]
    exact hw.empty k (Nat.le_of_succ_le hk) hlt

theorem Window.clear (hw : Window f accepted first) (hlt : first < accepted.length) :
    Window (Function.update f (first % nbPackets) (-1)) accepted (first + 1) := by
  have hge := hw.le_first
  refine ⟨hlt, by omega, fun k q hk hq => ?_, fun k hk hlt' => ?_⟩
  · have hk' := (List.getElem?_eq_some_iff.mp hq).1
    rw [Function.update_of_ne (slot_ne (Nat.le_refl first) hk (by omega)).symm]
    exact hw.filled k q (Nat.le_of_succ_le hk) hq
  · rcases Nat.lt_or_ge k (first + nbPackets) with hin | hout
    · rw [Function.update_of_ne (slot_ne (Nat.le_refl first) (Nat.lt_of_lt_of_le hlt hk) hin).symm]
      exact hw.empty k hk hin
    · have hslot : k % nbPackets = first % nbPackets := by
        unfold nbPackets at *
        omega
      rw [hslot, Function.update_self]

end Window

/-- What holds as long as every copy is of a packet: the two indices count the
packets, and those in between are in the slots. -/
structure Ordered (s : SendRing) : Prop extends Counted s where
  valid : ∀ p ∈ s.accepted, p ≠ -1
  storing : s.feeder ≠ .storing (-1)
  write : s.xWritePacket = s.accepted.length % nbPackets
  read : s.xReadPacket = s.retired % nbPackets
  took : s.sender ≠ .waiting → s.sender ≠ .sending → 0 < s.taken.length
  window : Window s.xPacket s.accepted s.front
  taken : s.taken.map Prod.fst = s.accepted.take s.taken.length

theorem ordered_new (pool : Pool) : Ordered (new pool) where
  toCounted := counted_new pool
  valid := fun _ h => absurd h List.not_mem_nil
  storing := fun h => by cases h
  write := rfl
  read := rfl
  took := fun h => absurd rfl h
  window := ⟨Nat.le_refl 0, Nat.zero_le _, (fun _ _ _ h => by cases h), fun _ _ _ => rfl⟩
  taken := rfl

theorem Ordered.taken_le {s : SendRing} (hs : Ordered s) : s.taken.length ≤ s.accepted.length := by
  have h := congrArg List.length hs.taken
  rw [List.length_map, List.length_take] at h
  omega

theorem Ordered.step {s s' : SendRing} {a : Act} (hs : Ordered s) (ha : CopiesPacket s a)
    (h : Steps s a s') : Ordered s' := by
  have hcounted := hs.toCounted.step h
  have hread := hs.read
  have hwindow := hs.window
  cases h with
  | others pool =>
      exact ⟨hcounted, hs.valid, hs.storing, hs.write, hread, hs.took, hwindow, hs.taken⟩
  | accept p h hfree =>
      exact ⟨hcounted, hs.valid, (fun he => by cases he), hs.write, hread, hs.took, hwindow,
        hs.taken⟩
  | drop p h =>
      exact ⟨hcounted, hs.valid, hs.storing, hs.write, hread, hs.took, hwindow, hs.taken⟩
  | copy p h =>
      have hp := ha p h
      refine ⟨hcounted, hs.valid, fun he => ?_, hs.write, hread, hs.took, hwindow, hs.taken⟩
      injection he with he
      exact hp (copy_eq_neg_one.mp he)
  | store p h =>
      have hp : p ≠ -1 := fun he => hs.storing (he ▸ h)
      have hfree := hs.free (by rw [h]; exact fun he => by cases he)
      rw [hs.write] at hfree
      have hstore := hwindow.store p (hwindow.room hs.valid hfree)
      rw [← hs.write] at hstore
      rw [if_neg hp] at hcounted ⊢
      refine ⟨hcounted, fun q hq => ?_, (fun he => by cases he), ?_, hread, hs.took, hstore, ?_⟩
      · rcases List.mem_append.mp hq with hq | hq
        · exact hs.valid q hq
        · rwa [List.mem_singleton.mp hq]
      · show (s.xWritePacket + 1) % nbPackets = (s.accepted ++ [p]).length % nbPackets
        rw [List.length_append, List.length_singleton, hs.write, Nat.mod_add_mod]
      · show s.taken.map Prod.fst = (s.accepted ++ [p]).take s.taken.length
        rw [List.take_append_of_le_length hs.taken_le]
        exact hs.taken
  | feed h hbusy =>
      unfold retired at hread
      unfold front at hwindow
      rw [h] at hread hwindow
      exact ⟨hcounted, hs.valid, hs.storing, hs.write, hread, fun _ hne => absurd rfl hne, hwindow,
        hs.taken⟩
  | send h =>
      have hbusy := hs.busy (by rw [h]; decide) (by rw [h]; decide)
      unfold retired at hread
      unfold front at hwindow
      rw [h] at hread hwindow
      dsimp only at hread hwindow
      have hslot : s.current = s.xPacket (s.taken.length % nbPackets) := congrArg s.xPacket hread
      have hlt := hwindow.first_lt (hslot ▸ hbusy)
      have hget := List.getElem?_eq_getElem hlt
      have hcurrent : s.current = s.accepted[s.taken.length] :=
        hslot.trans (hwindow.filled _ _ (Nat.le_refl _) hget)
      have hlen : (s.taken ++ [(s.current, transmits s.pool s.current)]).length =
          s.taken.length + 1 := by rw [List.length_append, List.length_singleton]
      have hpred : (s.taken ++ [(s.current, transmits s.pool s.current)]).length - 1 =
          s.taken.length := by rw [hlen, Nat.add_sub_cancel]
      rw [← hpred] at hread hwindow
      refine ⟨hcounted, hs.valid, hs.storing, hs.write, hread, fun _ _ => ?_, hwindow, ?_⟩
      · show 0 < (s.taken ++ [(s.current, transmits s.pool s.current)]).length
        rw [hlen]
        exact Nat.succ_pos _
      · show (s.taken ++ [(s.current, transmits s.pool s.current)]).map Prod.fst =
          s.accepted.take (s.taken ++ [(s.current, transmits s.pool s.current)]).length
        rw [hlen, List.map_append, hs.taken, List.take_add_one, hget, hcurrent]
        rfl
  | remove h =>
      have htook := hs.took (by rw [h]; decide) (by rw [h]; decide)
      unfold retired at hread
      unfold front at hwindow
      rw [h] at hread hwindow
      exact ⟨hcounted, hs.valid, hs.storing, hs.write, hread, fun _ _ => htook, hwindow, hs.taken⟩
  | clear h =>
      have hbusy := hs.busy (by rw [h]; decide) (by rw [h]; decide)
      have htook := hs.took (by rw [h]; decide) (by rw [h]; decide)
      unfold retired at hread
      unfold front at hwindow
      rw [h] at hread hwindow
      dsimp only at hread hwindow
      have hslot : s.current = s.xPacket ((s.taken.length - 1) % nbPackets) :=
        congrArg s.xPacket hread
      have hclear := hwindow.clear (hwindow.first_lt (hslot ▸ hbusy))
      rw [← hread, Nat.sub_add_cancel htook] at hclear
      exact ⟨hcounted, hs.valid, hs.storing, hs.write, hread, fun _ _ => htook, hclear, hs.taken⟩
  | advance h =>
      have htook := hs.took (by rw [h]; decide) (by rw [h]; decide)
      unfold retired at hread
      unfold front at hwindow
      rw [h] at hread hwindow
      dsimp only at hread hwindow
      refine ⟨hcounted, hs.valid, hs.storing, hs.write, ?_, fun hne => absurd rfl hne, hwindow,
        hs.taken⟩
      show (s.xReadPacket + 1) % nbPackets = s.taken.length % nbPackets
      rw [hread, Nat.mod_add_mod, Nat.sub_add_cancel htook]

theorem Ordered.inOrder {s : SendRing} (hs : Ordered s) : InOrder s where
  taken := by
    rw [hs.taken]
    exact List.take_prefix _ _
  kept i p hi hp := by
    refine hs.window.filled i p (Nat.le_trans ?_ hi) hp
    unfold front
    split <;> omega
  oneReference := hs.oneReference
  noGap hwait hempty i hi := by
    have hread := hs.read
    have hwindow := hs.window
    unfold retired at hread
    unfold front at hwindow
    rw [hwait] at hread hwindow
    dsimp only at hread hwindow
    have hslot : s.current = s.xPacket (s.taken.length % nbPackets) := congrArg s.xPacket hread
    have hle : s.accepted.length ≤ s.taken.length := by
      refine Nat.le_of_not_lt fun hlt => ?_
      have hfirst := hwindow.filled _ _ (Nat.le_refl _) (List.getElem?_eq_getElem hlt)
      rw [← hslot, hempty] at hfirst
      exact hs.valid _ (List.getElem_mem hlt) hfirst.symm
    -- the number from the first slot on that has this slot
    have hmod : (s.taken.length + (i + nbPackets - s.taken.length % nbPackets) % nbPackets) %
        nbPackets = i := by
      unfold nbPackets at *
      omega
    rw [← hmod]
    refine hwindow.empty _ (Nat.le_add_right_of_le hle) ?_
    exact Nat.add_lt_add_left (Nat.mod_lt _ (Nat.succ_pos 3)) _

/-- As long as every *register_ro* that finds its slot empty brings a packet, packets
are taken out in the order in which they came, none is skipped, and nobody waits
at an empty slot for a packet that is in another. -/
theorem run_inOrder {s : SendRing} (h : Run CopiesPacket s) : InOrder s := by
  have hs : Ordered s := by
    induction h with
    | new pool => exact ordered_new pool
    | step _ ha h ih => exact ih.step ha (step_cases h)
  exact hs.inOrder

/-- A pool with one packet, at 0. -/
def onePacket : Pool :=
  (pdpPacketSetup [] fun _ => none).put 0 (some (Packet.fresh 0 ⟨[], DataArea.empty_size_lt⟩))

/-- What a register message leads to when its slot is empty. -/
theorem Run.register {ok : SendRing → Act → Prop} {s : SendRing} (hs : Run ok s)
    (hok : ∀ s a, a ≠ .copy → ok s a) (hidle : s.feeder = .idle)
    (hfree : s.xPacket s.xWritePacket = -1) {p : Int}
    (hcopy : ok { s with feeder := .copying p } .copy) :
    ∃ s', Run ok s' ∧ s'.sender = s.sender ∧ s'.feeder = .idle ∧ s'.xReadPacket = s.xReadPacket ∧
      s'.xWritePacket = (s.xWritePacket + 1) % nbPackets ∧ s'.pool = (pdpPacketCopyRo p s.pool).2 ∧
      s'.xPacket = Function.update s.xPacket s.xWritePacket (pdpPacketCopyRo p s.pool).1 := by
  have h₁ : s.step (.registerRo p) = some { s with feeder := .copying p } := by
    simp only [SendRing.step, hidle, hfree, if_true]
  have hs₁ := Run.step hs (hok _ _ fun he => by cases he) h₁
  have hs₂ := Run.step hs₁ hcopy rfl
  have hs₃ := Run.step (a := .store) hs₂ (hok _ _ fun he => by cases he) rfl
  exact ⟨_, hs₃, rfl, rfl, rfl, rfl, rfl, rfl⟩

theorem run_inOrder_one : ∃ s, Run CopiesPacket s ∧ InOrder s ∧ s.xPacket 0 = 0 := by
  have hok : ∀ s a, a ≠ Act.copy → CopiesPacket s a := by
    intro s a hne
    cases a <;> trivial
  have hpacket : onePacket.pdpPacketHeader 0 ≠ none := by decide
  have hcopy : CopiesPacket { new onePacket with feeder := .copying 0 } .copy := by
    intro p hp
    injection hp with hp
    exact hp ▸ hpacket
  obtain ⟨s, hs, _, _, _, _, _, hslots⟩ := (Run.new onePacket).register hok rfl rfl hcopy
  have hcopied : (pdpPacketCopyRo 0 (new onePacket).pool).1 = 0 := copy_of_header hpacket
  refine ⟨s, hs, run_inOrder hs, ?_⟩
  rw [hslots, hcopied]
  exact Function.update_self ..

/-- What is no packet comes first and then a packet: the thread that sends waits at
the slot of the first one. -/
theorem waits_at_gap : ¬ ∀ s, Run (fun _ _ => True) s → InOrder s := by
  intro hall
  have hnone : (pdpPacketSetup [] fun _ => none).pdpPacketHeader 5 = none := by decide
  have hpacket : onePacket.pdpPacketHeader 0 ≠ none := by decide
  obtain ⟨s₁, hs₁, hsender₁, hidle₁, hread₁, hwrite₁, _, hslots₁⟩ :=
    (@Run.new (fun _ _ => True) (pdpPacketSetup [] fun _ => none)).register (p := 5)
      (fun _ _ _ => trivial) rfl rfl trivial
  have hcopied₁ : (pdpPacketCopyRo 5 (new (pdpPacketSetup [] fun _ => none)).pool).1 = -1 :=
    copy_eq_neg_one.mpr hnone
  rw [hcopied₁] at hslots₁
  have hempty₁ : ∀ i, s₁.xPacket i = -1 := fun i => by
    rw [hslots₁]
    exact congrFun (Function.update_eq_self _ _) i
  -- now there is a packet
  have hs₂ := Run.step (a := .others onePacket) hs₁ trivial rfl
  obtain ⟨s₃, hs₃, hsender₃, _, hread₃, _, _, hslots₃⟩ :=
    hs₂.register (p := 0) (fun _ _ _ => trivial) hidle₁ (hempty₁ _) trivial
  rw [copy_of_header hpacket] at hslots₃
  have hwait : s₃.sender = .waiting := hsender₃.trans hsender₁
  have hwrite : s₁.xWritePacket = 1 := hwrite₁
  have hread : s₃.xReadPacket = 0 := hread₃.trans hread₁
  have hslots : s₃.xPacket = Function.update s₁.xPacket 1 0 := by
    rw [hslots₃]
    show Function.update s₁.xPacket s₁.xWritePacket 0 = _
    rw [hwrite]
  have hcurrent : s₃.current = -1 := by
    rw [current, hread, hslots, Function.update_of_ne (by decide)]
    exact hempty₁ 0
  have hgap := (hall s₃ hs₃).noGap hwait hcurrent 1 (by decide)
  rw [hslots, Function.update_self] at hgap
  exact absurd hgap (by decide)

end SendRing

end PureDataPacket
