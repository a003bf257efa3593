/-
# `PureDataPacket.Object.Keeper` — objects that keep one packet

`pdp_reg` stores the packet that comes in and sends it on when it is asked to; `pdp_snap` does so
with the packet that comes after `snap`.  Both release the old packet before they take the new one,
which may be the same; and while a packet is being sent, nobody but the object need hold it.

| | |
| :-- | :-- |
| `Keeps` | the packet that is stored is live and owned once; what is being sent is live |
| `MessageSpares` | the old packet outlives the message, where it is the new one or is being sent |
| `keeper_keeps` | in every run in which the messages spare the packet, it is kept |
-/
import PureDataPacket.Type.Dispatch

namespace PureDataPacket

open Pool

/-- Which of the two objects it is. -/
inductive KeeperClass where
  | reg
  | snap
deriving DecidableEq

/-- `t_pdp_reg`, `t_pdp_snap`; the first one does not look at `x_snapnext`. -/
structure Keeper where
  xPacket0 : Int
  xSnapnext : Bool

inductive KeeperInlet where
  | left
  | right

inductive KeeperMessage where
  | registerRo (inlet : KeeperInlet) (packet : Int)
  | process (inlet : KeeperInlet)
  | bang
  | snap

/-- The object, the pool, how many references the others have to each packet, and the packets for
which `outlet_pdp` has not returned, the last one first. -/
structure KeeperState where
  x : Keeper
  pool : Pool
  others : Int → Nat
  sending : List Int

/-- `PDP_ASSERT(header->users)`, if there is a header. -/
def usersAsserted (handle : Int) (s : Pool) : Bool :=
  match s.pdpPacketHeader handle with
  | some header => header.users ≠ 0
  | none => true

namespace KeeperState

/-- `register_ro`.  Without a result an assertion of the pool has failed. -/
def register (f : Int) (st : KeeperState) : Option KeeperState :=
  if usersAsserted st.x.xPacket0 st.pool then
    let pool := pdpPacketMarkUnused st.x.xPacket0 st.pool
    if usersAsserted f pool then
      let (packet, pool) := pdpPacketCopyRo f pool
      some { st with x := { st.x with xPacket0 := packet }, pool := pool }
    else none
  else none

/-- `pdp_reg_bang`, `pdp_snap_bang`: `outlet_pdp` begins. -/
def bang (st : KeeperState) : KeeperState :=
  if -1 ≠ st.x.xPacket0 then { st with sending := st.x.xPacket0 :: st.sending } else st

/-- `pdp_reg_input_0`, `pdp_reg_input_1` and `pdp_reg_bang`. -/
def pdpReg (m : KeeperMessage) (st : KeeperState) : Option KeeperState :=
  match m with
  | .registerRo _ f => st.register f
  | .process .left => some st.bang
  | .process .right => some st
  | .bang => some st.bang
  | .snap => some st

/-- `pdp_snap_input_1`, `pdp_snap_bang` and `pdp_snap_snap`. -/
def pdpSnap (m : KeeperMessage) (st : KeeperState) : Option KeeperState :=
  match m with
  | .registerRo .left _ => some st
  | .registerRo .right f =>
      if st.x.xSnapnext then
        (st.register f).map fun st => { st with x := { st.x with xSnapnext := false } }
      else some st
  | .process _ => some st
  | .bang => some st.bang
  | .snap => some { st with x := { st.x with xSnapnext := true } }

def message (c : KeeperClass) (m : KeeperMessage) (st : KeeperState) : Option KeeperState :=
  match c with
  | .reg => pdpReg m st
  | .snap => pdpSnap m st

/-- The packet that a message makes the object take. -/
def takes (c : KeeperClass) (m : KeeperMessage) (st : KeeperState) : Option Int :=
  match c, m with
  | .reg, .registerRo _ f => some f
  | .snap, .registerRo .right f => if st.x.xSnapnext then some f else none
  | _, _ => none

/-! ## What is owed -/

/-- There is a packet, and it is in use. -/
def Live (s : Pool) (p : Int) : Prop := ∃ header, s.pdpPacketHeader p = some header ∧
  1 ≤ header.users

/-- The users of each packet are the others and, for the packet that is stored, the object, once. -/
def Accounted (st : KeeperState) : Prop :=
  ∀ p header, st.pool.pdpPacketHeader p = some header →
    header.users = st.others p + if p = st.x.xPacket0 then 1 else 0

/-- Nothing is stored, or a packet that is live and owned once; and what is being sent is live. -/
structure Keeps (st : KeeperState) : Prop where
  accounted : st.Accounted
  stored : st.x.xPacket0 = -1 ∨ Live st.pool st.x.xPacket0
  sending : ∀ p ∈ st.sending, Live st.pool p

/-- Taking a live packet fails no assertion, and the packet is then stored, and live. -/
def MessageRight (c : KeeperClass) (m : KeeperMessage) (st : KeeperState) : Prop :=
  ∀ f, takes c m st = some f → Live st.pool f →
    ∃ st', message c m st = some st' ∧ st'.x.xPacket0 = f ∧ Live st'.pool f

/-! ## When it is right -/

/-- If the object takes a packet and has one: somebody else holds the old one, or it is neither the
new one nor being sent; and the counter of the new one does not overflow. -/
def MessageSpares (c : KeeperClass) (m : KeeperMessage) (st : KeeperState) : Prop :=
  ∀ f, takes c m st = some f →
    (st.x.xPacket0 ≠ -1 →
      1 ≤ st.others st.x.xPacket0 ∨ f ≠ st.x.xPacket0 ∧ st.x.xPacket0 ∉ st.sending) ∧
    ∀ header, st.pool.pdpPacketHeader f = some header → header.users + 1 < 2 ^ 32

/-- A packet that is being sent, and is not stored any more, is not released by its last holder. -/
def OthersSpare (st : KeeperState) (pool : Pool) : Prop :=
  ∀ p ∈ st.sending, p ≠ st.x.xPacket0 → Live pool p

/-! ## Runs -/

/-- The runs of an object in which messages and other steps are of this kind.  The others may do
what they like with their references; they have none of those of the object. -/
inductive Run (c : KeeperClass) (M : KeeperMessage → KeeperState → Prop)
    (O : KeeperState → Pool → Prop) : KeeperState → Prop
  | new (pool : Pool) (others : Int → Nat)
      (h : ∀ p header, pool.pdpPacketHeader p = some header → header.users = others p) :
      Run c M O ⟨⟨-1, false⟩, pool, others, []⟩
  | message {st st' : KeeperState} {m : KeeperMessage} : Run c M O st → M m st →
      st.message c m = some st' → Run c M O st'
  | sent {st : KeeperState} {p : Int} {rest : List Int} : Run c M O st →
      st.sending = p :: rest → Run c M O { st with sending := rest }
  | others {st : KeeperState} (pool : Pool) (others : Int → Nat) : Run c M O st → O st pool →
      Accounted { st with pool := pool, others := others } →
      ((st.pool.pdpPacketHeader st.x.xPacket0).isSome →
        (pool.pdpPacketHeader st.x.xPacket0).isSome) →
      Run c M O { st with pool := pool, others := others }

section Steps

variable {c : KeeperClass} {m : KeeperMessage} {st st' : KeeperState} {f p : Int} {s : Pool}

theorem Live.usersAsserted (h : Live s p) : usersAsserted p s = true := by
  obtain ⟨header, hp, hu⟩ := h
  unfold PureDataPacket.usersAsserted
  rw [hp]
  exact decide_eq_true (Nat.ne_of_gt hu)

/-- The stored packet has a header, or there is none. -/
theorem Keeps.usersAsserted (h : st.Keeps) : usersAsserted st.x.xPacket0 st.pool = true := by
  rcases h.stored with hnone | hlive
  · unfold PureDataPacket.usersAsserted
    rw [hnone, header_neg_one]
  · exact hlive.usersAsserted

theorem header_release (h : st.Accounted) (p : Int) :
    (pdpPacketMarkUnused st.x.xPacket0 st.pool).pdpPacketHeader p =
      (st.pool.pdpPacketHeader p).map fun header => { header with users := st.others p } := by
  cases hold : st.pool.pdpPacketHeader st.x.xPacket0 with
  | none =>
      rw [pdpPacketMarkUnused_none hold]
      cases hp : st.pool.pdpPacketHeader p with
      | none => rfl
      | some header =>
          have hne : p ≠ st.x.xPacket0 := by
            rintro rfl
            cases hold.symm.trans hp
          have husers := h p header hp
          rw [if_neg hne, Nat.add_zero] at husers
          rw [Option.map_some, ← husers]
  | some old =>
      rw [header_markUnused hold]
      by_cases hp : p = st.x.xPacket0
      · rw [if_pos hp, hp, hold, Option.map_some]
        have husers := h _ old hold
        rw [if_pos rfl] at husers
        rw [husers, Nat.add_sub_cancel]
      · rw [if_neg hp]
        cases hheader : st.pool.pdpPacketHeader p with
        | none => rfl
        | some header =>
            have husers := h p header hheader
            rw [if_neg hp, Nat.add_zero] at husers
            rw [Option.map_some, ← husers]

/-- What registering a packet leaves behind: the users are again those who hold the packet. -/
theorem register_cases (h : st.Keeps) (hreg : st.register f = some st')
    (hlt : ∀ header, st.pool.pdpPacketHeader f = some header → header.users + 1 < 2 ^ 32) :
    ∃ g pool, st' = { st with x := { st.x with xPacket0 := g }, pool := pool } ∧
      (∀ p, pool.pdpPacketHeader p = (st.pool.pdpPacketHeader p).map fun header =>
        { header with users := st.others p + if p = g then 1 else 0 }) ∧
      (g = -1 ∨ g = f ∧ (st.pool.pdpPacketHeader f).isSome) := by
  unfold register at hreg
  rw [h.usersAsserted, if_pos rfl] at hreg
  dsimp only at hreg
  have hrelease := header_release h.accounted
  generalize pdpPacketMarkUnused st.x.xPacket0 st.pool = released at hreg hrelease
  split at hreg
  case isFalse => cases hreg
  case isTrue =>
    cases hf : st.pool.pdpPacketHeader f with
    | none =>
        have hnone : released.pdpPacketHeader f = none := by
          rw [hrelease, hf]
          rfl
        rw [pdpPacketCopyRo_none hnone] at hreg
        refine ⟨-1, released, (Option.some.inj hreg).symm, fun p => ?_, Or.inl rfl⟩
        by_cases hp : p = -1
        · rw [hp, header_neg_one, header_neg_one]
          rfl
        · rw [if_neg hp]
          exact hrelease p
    | some header =>
        have hsome : released.pdpPacketHeader f = some { header with users := st.others f } := by
          rw [hrelease, hf]
          rfl
        have husers := h.accounted f header hf
        have hbound := hlt header hf
        have hu32 : u32 (st.others f + 1) = st.others f + 1 := Nat.mod_eq_of_lt (by omega)
        rw [pdpPacketCopyRo_eq hsome, hu32] at hreg
        refine ⟨f, _, (Option.some.inj hreg).symm, fun p => ?_, Or.inr ⟨rfl, rfl⟩⟩
        rw [(puts_of_header hsome _).header]
        by_cases hp : p = f
        · rw [if_pos hp, if_pos hp, hp, hf]
          rfl
        · rw [if_neg hp, if_neg hp]
          exact hrelease p

/-- Who is live before is live after, if somebody else holds it. -/
theorem Keeps.others_pos (h : st.Keeps) (hp : Live st.pool p) (hne : p ≠ st.x.xPacket0) :
    1 ≤ st.others p := by
  obtain ⟨header, hheader, hu⟩ := hp
  have husers := h.accounted p header hheader
  rw [if_neg hne] at husers
  omega

theorem register_keeps (h : st.Keeps) (hreg : st.register f = some st')
    (hspares : st.x.xPacket0 ≠ -1 →
      1 ≤ st.others st.x.xPacket0 ∨ f ≠ st.x.xPacket0 ∧ st.x.xPacket0 ∉ st.sending)
    (hlt : ∀ header, st.pool.pdpPacketHeader f = some header → header.users + 1 < 2 ^ 32) :
    st'.Keeps := by
  obtain ⟨g, pool, rfl, hheaders, hg⟩ := register_cases h hreg hlt
  have hlive : ∀ p, (st.pool.pdpPacketHeader p).isSome → 1 ≤ st.others p ∨ p = g →
      Live pool p := by
    intro p hp hor
    obtain ⟨header, hheader⟩ := Option.isSome_iff_exists.mp hp
    refine ⟨_, (hheaders p).trans (congrArg _ hheader), ?_⟩
    change 1 ≤ st.others p + if p = g then 1 else 0
    rcases hor with hpos | heq
    · exact Nat.le_add_right_of_le hpos
    · rw [if_pos heq]
      exact Nat.le_add_left _ _
  constructor
  case accounted =>
    intro p header hheader
    change pool.pdpPacketHeader p = some header at hheader
    rw [hheaders] at hheader
    obtain ⟨old, _, rfl⟩ := Option.map_eq_some_iff.mp hheader
    rfl
  case stored =>
    rcases hg with hnone | ⟨rfl, hsome⟩
    · exact Or.inl hnone
    · exact Or.inr (hlive _ hsome (Or.inr rfl))
  case sending =>
    intro p hp
    have hold := h.sending p hp
    obtain ⟨header, hheader, _⟩ := id hold
    have hsome : (st.pool.pdpPacketHeader p).isSome := by
      rw [hheader]
      rfl
    refine hlive p hsome (Or.inl ?_)
    by_cases heq : p = st.x.xPacket0
    · have hne : st.x.xPacket0 ≠ -1 := by
        intro hneg
        rw [heq, hneg, header_neg_one] at hheader
        cases hheader
      rcases hspares hne with hpos | ⟨_, hnot⟩
      · rw [heq]
        exact hpos
      · exact absurd (heq ▸ hp) hnot
    · exact h.others_pos hold heq

theorem register_right (h : st.Keeps) (hf : Live st.pool f)
    (hspares : st.x.xPacket0 ≠ -1 →
      1 ≤ st.others st.x.xPacket0 ∨ f ≠ st.x.xPacket0 ∧ st.x.xPacket0 ∉ st.sending)
    (hlt : ∀ header, st.pool.pdpPacketHeader f = some header → header.users + 1 < 2 ^ 32) :
    ∃ st', st.register f = some st' ∧ st'.x.xPacket0 = f ∧ Live st'.pool f := by
  obtain ⟨header, hheader, hu⟩ := id hf
  have hpos : 1 ≤ st.others f := by
    by_cases heq : f = st.x.xPacket0
    · have hne : st.x.xPacket0 ≠ -1 := by
        intro hneg
        rw [heq, hneg, header_neg_one] at hheader
        cases hheader
      rcases hspares hne with hpos | ⟨hne, _⟩
      · rw [heq]
        exact hpos
      · exact absurd heq hne
    · exact h.others_pos hf heq
  have hsome : (pdpPacketMarkUnused st.x.xPacket0 st.pool).pdpPacketHeader f =
      some { header with users := st.others f } := by
    rw [header_release h.accounted, hheader]
    rfl
  have hasserted := Live.usersAsserted ⟨_, hsome, hpos⟩
  have hreg : st.register f = some { st with
      x := { st.x with xPacket0 := f },
      pool := (pdpPacketMarkUnused st.x.xPacket0 st.pool).put f
        (some { header with users := u32 (st.others f + 1) }) } := by
    unfold register
    rw [h.usersAsserted, if_pos rfl]
    dsimp only
    rw [hasserted, if_pos rfl, pdpPacketCopyRo_eq hsome]
  refine ⟨_, hreg, rfl, ?_⟩
  have hkeeps := register_keeps h hreg hspares hlt
  rcases hkeeps.stored with hneg | hlive
  · change f = -1 at hneg
    rw [hneg, header_neg_one] at hheader
    cases hheader
  · exact hlive

/-! ### Messages -/

/-- The flag of `pdp_snap` is nobody's business. -/
theorem Keeps.withSnapnext (h : st.Keeps) (b : Bool) :
    Keeps { st with x := { st.x with xSnapnext := b } } :=
  ⟨h.accounted, h.stored, h.sending⟩

theorem Keeps.bang (h : st.Keeps) : st.bang.Keeps := by
  unfold KeeperState.bang
  split
  · next hne =>
      refine ⟨h.accounted, h.stored, fun p hp => ?_⟩
      rcases List.mem_cons.mp hp with rfl | hp
      · exact h.stored.resolve_left (Ne.symm hne)
      · exact h.sending p hp
  · exact h

/-- A message that makes the object take a packet registers it. -/
theorem message_of_takes (h : takes c m st = some f) : ∃ b : KeeperState → Bool,
    st.message c m =
      (st.register f).map fun st => { st with x := { st.x with xSnapnext := b st } } := by
  match c, m with
  | .reg, .registerRo inlet g =>
      obtain rfl : g = f := Option.some.inj h
      refine ⟨fun st => st.x.xSnapnext, ?_⟩
      cases hreg : st.register g with
      | none => exact hreg
      | some st' => exact hreg
  | .snap, .registerRo .right g =>
      simp only [takes] at h
      split at h
      · next hnext =>
          obtain rfl : g = f := Option.some.inj h
          refine ⟨fun _ => false, ?_⟩
          simp only [message, pdpSnap, hnext, if_true]
      · cases h

/-- Any other message sends what is stored, or leaves it alone. -/
theorem message_of_not_takes (h : takes c m st = none) : st.message c m = some st ∨
    st.message c m = some st.bang ∨
      st.message c m = some { st with x := { st.x with xSnapnext := true } } := by
  match c, m with
  | .reg, .process .left => exact Or.inr (Or.inl rfl)
  | .reg, .process .right => exact Or.inl rfl
  | .reg, .bang => exact Or.inr (Or.inl rfl)
  | .reg, .snap => exact Or.inl rfl
  | .snap, .registerRo .left _ => exact Or.inl rfl
  | .snap, .registerRo .right _ =>
      simp only [takes] at h
      split at h
      · cases h
      · next hnext =>
          refine Or.inl ?_
          simp only [message, pdpSnap, hnext, if_false, Bool.false_eq_true]
  | .snap, .process _ => exact Or.inl rfl
  | .snap, .bang => exact Or.inr (Or.inl rfl)
  | .snap, .snap => exact Or.inr (Or.inr rfl)

theorem message_keeps (h : st.Keeps) (hspares : MessageSpares c m st)
    (hmessage : st.message c m = some st') : st'.Keeps := by
  cases htakes : takes c m st with
  | none =>
      rcases message_of_not_takes htakes with heq | heq | heq
      · obtain rfl := Option.some.inj (heq.symm.trans hmessage)
        exact h
      · obtain rfl := Option.some.inj (heq.symm.trans hmessage)
        exact h.bang
      · obtain rfl := Option.some.inj (heq.symm.trans hmessage)
        exact h.withSnapnext true
  | some f =>
      obtain ⟨b, heq⟩ := message_of_takes htakes
      rw [heq] at hmessage
      obtain ⟨st1, hreg, rfl⟩ := Option.map_eq_some_iff.mp hmessage
      obtain ⟨hold, hlt⟩ := hspares f htakes
      exact (register_keeps h hreg hold hlt).withSnapnext (b st1)

theorem message_right (h : st.Keeps) (hspares : MessageSpares c m st) : MessageRight c m st := by
  intro f htakes hf
  obtain ⟨hold, hlt⟩ := hspares f htakes
  obtain ⟨st1, hreg, hpacket, hlive⟩ := register_right h hf hold hlt
  obtain ⟨b, heq⟩ := message_of_takes htakes
  refine ⟨KeeperState.mk { st1.x with xSnapnext := b st1 } st1.pool st1.others st1.sending, ?_,
    hpacket, hlive⟩
  rw [heq, hreg]
  rfl

end Steps

/-! ## Every run -/

section Every

variable {c : KeeperClass} {st : KeeperState}

/-- What the object keeps is kept, and it takes what it is offered. -/
theorem keeper_keeps (h : Run c (MessageSpares c) OthersSpare st) :
    st.Keeps ∧ ∀ m, MessageSpares c m st → MessageRight c m st := by
  have hkeeps : st.Keeps := by
    induction h with
    | new pool others h =>
        refine ⟨fun p header hp => ?_, Or.inl rfl, fun p hp => absurd hp List.not_mem_nil⟩
        by_cases hneg : p = -1
        · rw [hneg, header_neg_one] at hp
          cases hp
        · rw [if_neg hneg]
          exact h p header hp
    | message _ hspares hmessage ih => exact message_keeps ih hspares hmessage
    | sent _ hsending ih =>
        refine ⟨ih.accounted, ih.stored, fun p hp => ih.sending p ?_⟩
        rw [hsending]
        exact List.mem_cons_of_mem _ hp
    | @others st pool others _ hspares haccounted hheader ih =>
        have hstored : st.x.xPacket0 = -1 ∨ Live pool st.x.xPacket0 := by
          refine ih.stored.imp_right ?_
          rintro ⟨header, hp, _⟩
          obtain ⟨header', hp'⟩ := Option.isSome_iff_exists.mp (hheader (by rw [hp]; rfl))
          refine ⟨header', hp', ?_⟩
          have husers := haccounted _ header' hp'
          rw [if_pos rfl] at husers
          omega
        refine ⟨haccounted, hstored, fun p hp => ?_⟩
        by_cases heq : p = st.x.xPacket0
        · obtain ⟨header, hlive, _⟩ := ih.sending p hp
          have hne : st.x.xPacket0 ≠ -1 := by
            intro hneg
            rw [heq, hneg, header_neg_one] at hlive
            cases hlive
          rw [heq]
          exact hstored.resolve_left hne
        · exact hspares p hp heq
  exact ⟨hkeeps, fun m hspares => message_right hkeeps hspares⟩

/-! ### A packet that is offered to its keeper -/

/-- Two packets, one reference to each. -/
def oneEach (p : Int) : Nat := if p = 0 ∨ p = 1 then 1 else 0

theorem oneEach_users (p : Int) (header : Packet)
    (h : (pair greyPixel greyPixel).pdpPacketHeader p = some header) :
    header.users = oneEach p := by
  obtain ⟨hlo, hhi⟩ := lt_of_header h
  change p < 2 at hhi
  obtain rfl | rfl : p = 0 ∨ p = 1 := by omega
  · obtain rfl := Option.some.inj h
    rfl
  · obtain rfl := Option.some.inj h
    rfl

/-- The object has stored the first packet, which somebody else holds as well, and is sending it. -/
def sendsShared : KeeperState :=
  ⟨⟨0, false⟩, pair { greyPixel with users := 2 } greyPixel, oneEach, [0]⟩

theorem run_sendsShared : Run .reg (MessageSpares .reg) OthersSpare sendsShared := by
  have hnew : Run .reg (MessageSpares .reg) OthersSpare _ :=
    .new (pair greyPixel greyPixel) oneEach oneEach_users
  refine .message (m := .bang) (.message (m := .registerRo .right 0) hnew ?_ rfl) ?_ rfl
  · rintro f hf
    obtain rfl : 0 = f := Option.some.inj hf
    refine ⟨fun hne => absurd rfl hne, fun header h => ?_⟩
    obtain rfl := Option.some.inj h
    decide
  · rintro f hf
    cases hf

/-- A packet that comes back to its keeper while it is being sent, and that somebody else holds. -/
theorem keeper_keeps_shared :
    sendsShared.Keeps ∧ MessageRight .reg (.registerRo .right 0) sendsShared := by
  obtain ⟨hkeeps, hright⟩ := keeper_keeps run_sendsShared
  refine ⟨hkeeps, hright _ fun f hf => ?_⟩
  obtain rfl : 0 = f := Option.some.inj hf
  refine ⟨fun _ => Or.inl (by decide), fun header h => ?_⟩
  obtain rfl := Option.some.inj h
  decide

/-- The object is the last holder of the first packet, and is sending it. -/
def sendsOwn : KeeperState :=
  ⟨⟨0, false⟩, pair greyPixel greyPixel, fun p => if p = 1 then 1 else 0, [0]⟩

theorem run_sendsOwn : Run .reg (fun _ _ => True) OthersSpare sendsOwn := by
  have hnew : Run .reg (fun _ _ => True) OthersSpare _ :=
    .new (pair greyPixel greyPixel) oneEach oneEach_users
  have hstored := Run.message (m := .registerRo .right 0) hnew trivial rfl
  have hown := Run.others (pair greyPixel greyPixel) (fun p => if p = 1 then 1 else 0) hstored
    (fun p hp => absurd hp List.not_mem_nil) (fun p header h => by
      rw [oneEach_users p header h]
      change oneEach p = (if p = 1 then 1 else 0) + if p = 0 then 1 else 0
      unfold oneEach
      grind) fun _ => rfl
  exact .message (m := .bang) hown trivial rfl

/-- The last packet that a register holds comes back to it: it is released before it is taken. -/
theorem not_keeper_keeps : ¬ ∀ c st, Run c (fun _ _ => True) OthersSpare st →
    st.Keeps ∧ ∀ m, MessageRight c m st := by
  intro h
  obtain ⟨st', hmessage, _⟩ := (h .reg sendsOwn run_sendsOwn).2 (.registerRo .right 0) 0 rfl
    ⟨greyPixel, rfl, by decide⟩
  cases hmessage

end Every

end KeeperState

end PureDataPacket
