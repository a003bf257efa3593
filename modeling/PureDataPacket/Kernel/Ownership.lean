/-
# `PureDataPacket.Kernel.Ownership` — who owns which packet

The pool counts references; it does not know whose they are.  Here each client
keeps the handles it was given, as ghost state beside the pool: every handle
returned is one reference, `mark_unused` and `delete` give one up.  A client is
*legal* when it passes only handles of its own, and deletes only a packet it is
the last user of.

| | |
| :-- | :-- |
| `World.exec` | a pool operation of one client, with its references |
| `Permitted` | what may be asked of a single operation |
| `Call.Legal` | what may be asked of a client |
| `Accounted` | the invariant: a packet has as many users as owners |

A client is bound by `Call.Legal` alone.  That the operations inside a clone or
a factory are all `Permitted` is proved here, not assumed.

The count is an `unsigned int`.  The one operation that can break the invariant
is the `pdp_packet_copy_ro` that takes it from `2 ^ 32 - 1` to 0: `NoWrap`
leaves it out.
-/
import Mathlib.Data.List.Perm.Basic
import PureDataPacket.Kernel.PoolSpec
import PureDataPacket.Kernel.Factory

namespace PureDataPacket

open Pool

/-- The pool, and each reference with the client that holds it. -/
structure World (C : Type) where
  pool : Pool
  refs : List (C × Int)

namespace World

variable {C : Type}

/-- The pool after setup; nobody holds anything. -/
def init (C : Type) (classList : List PdpClass) (malloc : Nat → Option (Nat → UInt8)) : World C where
  pool := pdpPacketSetup classList malloc
  refs := []

/-- How many references to `h` are held. -/
def owned (w : World C) (h : Int) : Nat := w.refs.countP (·.2 = h)

/-- A handle that is handed out is one more reference. -/
def receive (c : C) (h : Int) (refs : List (C × Int)) : List (C × Int) :=
  if h = -1 then refs else (c, h) :: refs

/-- The references after an operation of client `c`. -/
def account [DecidableEq C] (c : C) : ∀ o : PoolOp, o.Answer → List (C × Int) → List (C × Int)
  | .create _ _, h, refs => receive c h refs
  | .new _ _, h, refs => receive c h refs
  | .reuse _, h, refs => receive c h refs
  | .copyRo _, h, refs => receive c h refs
  | .markUnused h, _, refs => refs.erase (c, h)
  | .delete h, _, refs => refs.erase (c, h)
  | .header _, _, refs => refs
  | .classes, _, refs => refs
  | .writeHeader _ _, _, refs => refs
  | .memcpyHeader _ _, _, refs => refs
  | .memcpyData _ _, _, refs => refs

/-- One operation of client `c`. -/
def exec [DecidableEq C] (c : C) (o : PoolOp) (w : World C) : Except Fault (o.Answer × World C) :=
  match o.exec w.pool with
  | .ok (r, s) => .ok (r, ⟨s, account c o r w.refs⟩)
  | .error e => .error e

theorem exec_eq_ok [DecidableEq C] {c : C} {o : PoolOp} {w w' : World C} {r : o.Answer}
    (h : exec c o w = .ok (r, w')) :
    o.exec w.pool = .ok (r, w'.pool) ∧ w'.refs = account c o r w.refs := by
  unfold exec at h
  split at h
  · next he =>
      cases h
      exact ⟨he, rfl⟩
  · cases h

theorem owned_pos {w : World C} {c : C} {h : Int} (hm : (c, h) ∈ w.refs) : 0 < w.owned h :=
  List.countP_pos_iff.mpr ⟨(c, h), hm, by simp⟩

theorem owned_of_refs {w w' : World C} (h : w'.refs = w.refs) (x : Int) :
    w'.owned x = w.owned x := by
  simp only [owned, h]

theorem owned_cons {w w' : World C} {c : C} {h : Int} (hr : w'.refs = (c, h) :: w.refs) (x : Int) :
    w'.owned x = w.owned x + if x = h then 1 else 0 := by
  by_cases he : x = h
  · simp [owned, hr, he]
  · simp [owned, hr, he, Ne.symm he]

theorem owned_erase [DecidableEq C] {w w' : World C} {c : C} {h : Int} (hm : (c, h) ∈ w.refs)
    (hr : w'.refs = w.refs.erase (c, h)) (x : Int) :
    w'.owned x = w.owned x - if x = h then 1 else 0 := by
  have hp := (List.perm_cons_erase hm).countP_eq (·.2 = x)
  by_cases he : x = h
  · subst he
    simp [owned, hr, hp]
  · simp [owned, hr, hp, he, Ne.symm he]

end World

open World

variable {C : Type}

/-! ## What an operation may be asked for -/

/-- The operation does not take a counter from `2 ^ 32 - 1` to 0. -/
def PoolOp.NoWrap (s : Pool) : PoolOp → Prop
  | .copyRo h => ∀ p, s.pdpPacketHeader h = some p → p.users ≠ 2 ^ 32 - 1
  | _ => True

/-- The operation touches only what client `c` owns.  A header is copied only
over a packet with one owner, from a packet with at least one. -/
def Permitted (c : C) (w : World C) : PoolOp → Prop
  | .copyRo h => (c, h) ∈ w.refs
  | .markUnused h => (c, h) ∈ w.refs
  | .delete h => (c, h) ∈ w.refs ∧ ∃ p, w.pool.pdpPacketHeader h = some p ∧ p.users = 1
  | .writeHeader h _ => (c, h) ∈ w.refs
  | .memcpyHeader d h => w.owned d = 1 ∧ 0 < w.owned h
  | .memcpyData h _ => (c, h) ∈ w.refs
  | .create _ _ => True
  | .new _ _ => True
  | .reuse _ => True
  | .header _ => True
  | .classes => True

/-- The guard on single operations under which the invariant holds. -/
def Guarded (c : C) (w : World C) (o : PoolOp) : Prop :=
  Permitted c w o ∧ o.NoWrap w.pool

/-! ## The invariant -/

/-- What somebody owns is there and has that many users. -/
structure Accounted (w : World C) : Prop where
  covered : ∀ h, 0 < w.owned h → ∃ p, w.pool.pdpPacketHeader h = some p ∧ w.owned h ≤ p.users
  bounded : ∀ h p, w.pool.pdpPacketHeader h = some p → p.users < 2 ^ 32

namespace Accounted

theorem init (classList : List PdpClass) (malloc : Nat → Option (Nat → UInt8)) :
    Accounted (World.init C classList malloc) where
  covered h hpos := by simp [World.init, owned] at hpos
  bounded h p hp := by
    have := mem_of_header hp
    simp [World.init, pdpPacketSetup] at this

theorem not_owned {w : World C} (ha : Accounted w) {h : Int}
    (hu : ∀ p, w.pool.pdpPacketHeader h = some p → p.users = 0) : w.owned h = 0 := by
  by_contra hne
  obtain ⟨p, hp, hle⟩ := ha.covered h (Nat.pos_of_ne_zero hne)
  have := hu p hp
  omega

theorem live {w : World C} (ha : Accounted w) {c : C} {h : Int} (hm : (c, h) ∈ w.refs) :
    ∃ p, w.pool.pdpPacketHeader h = some p ∧ 0 < p.users ∧ w.owned h ≤ p.users := by
  obtain ⟨p, hp, hle⟩ := ha.covered h (owned_pos hm)
  exact ⟨p, hp, Nat.lt_of_lt_of_le (owned_pos hm) hle, hle⟩

/-- An operation that changes one slot has to account for that slot only. -/
theorem of_slot {w w' : World C} (ha : Accounted w) {h : Int} {x : Option Packet}
    (hh : ∀ y, w'.pool.pdpPacketHeader y = if y = h then x else w.pool.pdpPacketHeader y)
    (ho : ∀ y, y ≠ h → w'.owned y = w.owned y)
    (hx : 0 < w'.owned h → ∃ p, x = some p ∧ w'.owned h ≤ p.users)
    (hb : ∀ p, x = some p → p.users < 2 ^ 32) : Accounted w' where
  covered y hy := by
    rw [hh]
    by_cases he : y = h
    · subst he
      rw [if_pos rfl]
      exact hx hy
    · rw [if_neg he]
      rw [ho y he] at hy ⊢
      exact ha.covered y hy
  bounded y p hp := by
    rw [hh] at hp
    by_cases he : y = h
    · rw [if_pos he] at hp
      exact hb p hp
    · rw [if_neg he] at hp
      exact ha.bounded y p hp

theorem of_same {w w' : World C} (ha : Accounted w)
    (hh : ∀ y, w'.pool.pdpPacketHeader y = w.pool.pdpPacketHeader y)
    (hr : w'.refs = w.refs) : Accounted w' where
  covered y hy := by
    rw [hh]
    rw [owned_of_refs hr] at hy ⊢
    exact ha.covered y hy
  bounded y p hp := ha.bounded y p (hh y ▸ hp)

/-- A packet with one user is handed out: nobody owned it, and now one does. -/
theorem of_taken {w w' : World C} (ha : Accounted w) {c : C} {h : Int} {p : Packet}
    (hu : ∀ p, w.pool.pdpPacketHeader h = some p → p.users = 0) (hp : p.users = 1)
    (hh : ∀ y, w'.pool.pdpPacketHeader y =
      if y = h then some p else w.pool.pdpPacketHeader y)
    (hr : w'.refs = (c, h) :: w.refs) : Accounted w' := by
  have h0 := ha.not_owned hu
  refine ha.of_slot hh (fun y hy => ?_) (fun _ => ⟨p, rfl, ?_⟩) (fun q hq => ?_)
  · rw [owned_cons hr, if_neg hy, Nat.add_zero]
  · have howned := owned_cons hr h
    rw [if_pos rfl, h0] at howned
    omega
  · cases hq
    omega

end Accounted

/-! ## Handing out

`Gives` is what every operation that hands out a packet promises its caller:
the handle is -1 and nothing was given, or nobody owned it and one reference
was given.  `GivesSole` adds that the packet has a single user. -/

/-- `r` was handed to `c` between `w` and `w'`, if it is not -1. -/
structure Gives (c : C) (w : World C) (r : Int) (w' : World C) : Prop where
  accounted : Accounted w'
  refs : w'.refs = receive c r w.refs
  fresh : r ≠ -1 → w.owned r = 0

/-- As `Gives`, of a packet with one user. -/
structure GivesSole (c : C) (w : World C) (r : Int) (w' : World C) : Prop
    extends Gives c w r w' where
  sole : r ≠ -1 → ∃ p, w'.pool.pdpPacketHeader r = some p ∧ p.users = 1

theorem Gives.refs_eq {c : C} {w w' : World C} {r : Int} (h : Gives c w r w') (hr : r ≠ -1) :
    w'.refs = (c, r) :: w.refs := by
  rw [h.refs, receive, if_neg hr]

theorem Gives.mem {c : C} {w w' : World C} {r : Int} (h : Gives c w r w') (hr : r ≠ -1) :
    (c, r) ∈ w'.refs := by
  rw [h.refs_eq hr]
  exact List.mem_cons_self

theorem Gives.mem_of_mem {c c' : C} {w w' : World C} {r x : Int} (h : Gives c w r w')
    (hm : (c', x) ∈ w.refs) : (c', x) ∈ w'.refs := by
  rw [h.refs, receive]
  split
  · exact hm
  · exact List.mem_cons_of_mem _ hm

theorem GivesSole.none {c : C} {w : World C} (ha : Accounted w) : GivesSole c w (-1) w :=
  ⟨⟨ha, by rw [receive, if_pos rfl], fun h => absurd rfl h⟩, fun h => absurd rfl h⟩

/-- Nothing was given so far; what is given from here on was given in all. -/
theorem Gives.of_none {c : C} {w w₁ w₂ : World C} {r : Int} (h₁ : Gives c w (-1) w₁)
    (h₂ : Gives c w₁ r w₂) : Gives c w r w₂ := by
  have hr : w₁.refs = w.refs := by rw [h₁.refs, receive, if_pos rfl]
  refine ⟨h₂.accounted, ?_, fun hne => ?_⟩
  · rw [h₂.refs, hr]
  · rw [← owned_of_refs hr, h₂.fresh hne]

theorem GivesSole.of_none {c : C} {w w₁ w₂ : World C} {r : Int} (h₁ : GivesSole c w (-1) w₁)
    (h₂ : GivesSole c w₁ r w₂) : GivesSole c w r w₂ :=
  ⟨h₁.toGives.of_none h₂.toGives, h₂.sole⟩

theorem GivesSole.of_handsOut {c : C} {w w' : World C} {t n : Nat} {r : Int}
    (ha : Accounted w) (h : r = -1 ∧ Same w.pool w'.pool ∨ HandsOut w.pool t n r w'.pool)
    (hr : w'.refs = receive c r w.refs) : GivesSole c w r w' := by
  rcases h with ⟨rfl, hs⟩ | ho
  · refine ⟨⟨ha.of_same hs.header ?_, hr, ?_⟩, ?_⟩
    · rw [hr, receive, if_pos rfl]
    · exact fun h => absurd rfl h
    · exact fun h => absurd rfl h
  · obtain ⟨data, _, hp⟩ := ho.puts
    rw [receive, if_neg ho.ne_neg_one] at hr
    refine ⟨⟨ha.of_taken ho.unused rfl hp.header hr, ?_, ?_⟩, ?_⟩
    · rw [hr, receive, if_neg ho.ne_neg_one]
    · exact fun _ => ha.not_owned ho.unused
    · exact fun _ => ⟨_, hp.self, rfl⟩

theorem GivesSole.of_reuse {c : C} {w w' : World C} {d : Option Symbol} {r : Int}
    (ha : Accounted w) (h : pdpPacketReuse d w.pool = .ok (r, w'.pool))
    (hr : w'.refs = receive c r w.refs) : GivesSole c w r w' := by
  obtain ⟨_, ⟨rfl, hs⟩ | ⟨p, _, _, hp, hu, _, _, _, _, hh⟩⟩ := pdpPacketReuse_spec h
  · refine ⟨⟨ha.of_same hs ?_, hr, ?_⟩, ?_⟩
    · rw [hr, receive, if_pos rfl]
    · exact fun h => absurd rfl h
    · exact fun h => absurd rfl h
  · have hne : r ≠ -1 := by
      have := (lt_of_header hp).1
      omega
    have hu' : ∀ q, w.pool.pdpPacketHeader r = some q → q.users = 0 := by
      intro q hq
      cases hp.symm.trans hq
      exact hu
    rw [receive, if_neg hne] at hr
    refine ⟨⟨ha.of_taken hu' rfl hh hr, ?_, ?_⟩, ?_⟩
    · rw [hr, receive, if_neg hne]
    · exact fun _ => ha.not_owned hu'
    · exact fun _ => ⟨_, by rw [hh, if_pos rfl], rfl⟩

/-! ## The invariant is preserved -/

theorem Accounted.step [DecidableEq C] {c : C} {w w' : World C} {o : PoolOp} {r : o.Answer} (ha : Accounted w)
    (hg : Guarded c w o) (h : World.exec c o w = .ok (r, w')) : Accounted w' := by
  obtain ⟨he, hr⟩ := exec_eq_ok h
  obtain ⟨hperm, hwrap⟩ := hg
  cases o with
  | create t n =>
      have hs := (pdpPacketCreate_spec he).imp_right And.right
      exact (GivesSole.of_handsOut ha hs hr).accounted
  | new t n => exact (GivesSole.of_handsOut ha (pdpPacketNew_spec he) hr).accounted
  | reuse d => exact (GivesSole.of_reuse ha he hr).accounted
  | copyRo x =>
      obtain ⟨p, hp, hpos, hle⟩ := ha.live hperm
      have hb := ha.bounded x p hp
      have hne := hwrap p hp
      have hu : u32 (p.users + 1) = p.users + 1 := u32_eq_self (by omega)
      simp only [PoolOp.exec, pdpPacketCopyRo_eq hp, Except.ok.injEq, Prod.mk.injEq] at he
      obtain ⟨rfl, hpool⟩ := he
      have hx : x ≠ -1 := by
        have := (lt_of_header hp).1
        omega
      simp only [account, receive, if_neg hx] at hr
      refine ha.of_slot (hpool ▸ (puts_of_header hp _).header) (fun y hy => ?_)
        (fun _ => ⟨_, rfl, ?_⟩) (fun q hq => ?_)
      · rw [owned_cons hr, if_neg hy]
        rfl
      · rw [owned_cons hr, if_pos rfl, hu]
        exact Nat.add_le_add_right hle 1
      · cases hq
        show u32 (p.users + 1) < 2 ^ 32
        omega
  | markUnused x =>
      obtain ⟨p, hp, hpos, hle⟩ := ha.live hperm
      have hb := ha.bounded x p hp
      simp only [PoolOp.exec, Except.ok.injEq, Prod.mk.injEq] at he
      refine ha.of_slot (he.2 ▸ header_markUnused hp) (fun y hy => ?_)
        (fun _ => ⟨_, rfl, ?_⟩) (fun q hq => ?_)
      · rw [owned_erase hperm hr, if_neg hy]
        rfl
      · rw [owned_erase hperm hr, if_pos rfl]
        exact Nat.sub_le_sub_right hle 1
      · cases hq
        exact Nat.lt_of_le_of_lt (Nat.sub_le _ _) hb
  | delete x =>
      obtain ⟨hm, p, hp, hu⟩ := hperm
      obtain ⟨_, hputs⟩ := pdpPacketDelete_spec (PoolOp.effect_eq_ok he)
      obtain ⟨q, hq, _, hle⟩ := ha.live hm
      cases hp.symm.trans hq
      refine ha.of_slot hputs.header (fun y hy => ?_) (fun hpos => ?_) (fun q hq => ?_)
      · rw [owned_erase hm hr, if_neg hy]
        rfl
      · rw [owned_erase hm hr, if_pos rfl] at hpos
        omega
      · cases hq
  | header x =>
      simp only [PoolOp.exec, Except.ok.injEq, Prod.mk.injEq] at he
      exact ha.of_same (fun _ => he.2 ▸ rfl) hr
  | classes =>
      simp only [PoolOp.exec, Except.ok.injEq, Prod.mk.injEq] at he
      exact ha.of_same (fun _ => he.2 ▸ rfl) hr
  | writeHeader x m =>
      obtain ⟨p, hp, hputs⟩ := writeHeader_spec (PoolOp.effect_eq_ok he)
      obtain ⟨q, hq, _, hle⟩ := ha.live hperm
      cases hp.symm.trans hq
      refine ha.of_slot hputs.header (fun y _ => owned_of_refs hr y)
        (fun _ => ⟨_, rfl, ?_⟩) (fun q hq => ?_)
      · rw [owned_of_refs hr]
        exact hle
      · cases hq
        exact ha.bounded x p hp
  | memcpyHeader d x =>
      obtain ⟨hd, hx⟩ := hperm
      obtain ⟨q, p, _, hp, hputs⟩ := memcpyHeader_spec (PoolOp.effect_eq_ok he)
      obtain ⟨p', hp', hle⟩ := ha.covered x hx
      cases hp.symm.trans hp'
      refine ha.of_slot hputs.header (fun y _ => owned_of_refs hr y)
        (fun _ => ⟨_, rfl, ?_⟩) (fun q hq => ?_)
      · rw [owned_of_refs hr, hd]
        exact Nat.le_trans hx hle
      · cases hq
        exact ha.bounded x p hp
  | memcpyData x l =>
      obtain ⟨p, _, hp, hputs⟩ := memcpyData_spec (PoolOp.effect_eq_ok he)
      obtain ⟨q, hq, _, hle⟩ := ha.live hperm
      cases hp.symm.trans hq
      refine ha.of_slot hputs.header (fun y _ => owned_of_refs hr y)
        (fun _ => ⟨_, rfl, ?_⟩) (fun q hq => ?_)
      · rw [owned_of_refs hr]
        exact hle
      · cases hq
        exact ha.bounded x p hp

end PureDataPacket
