/-
# `PureDataPacket.Object.PacketLine` — an array of packets

`pdp_del` and `pdp_loop` keep a packet in every cell of an array, or -1.  An access to a place that
is no cell, and a sum that is no `int`, have no result.  What the object owns is kept beside the
cells.

| | |
| :-- | :-- |
| `Kept` | one reference for each packet, and none for another |
| `copiedRo_markUnused` | a copy does not mind a release |
| `Kept.copiedRo` | a packet of the array can be copied |
-/
import PureDataPacket.Kernel.PoolSpec
import PureDataPacket.Object.Holdings

namespace PureDataPacket

/-- A sum of the type `int`. -/
def addInt (a b : Int) : Option Int := if IsInt (a + b) then some (a + b) else none

theorem addInt_eq {a b : Int} (h : IsInt (a + b)) : addInt a b = some (a + b) := if_pos h

/-- A packet with a reference stays in the pool. -/
def Pool.Holds (pool : Pool) (o : Holdings) : Prop :=
  ∀ p ∈ o.refs, (pool.pdpPacketHeader p).isSome = true

def noPackets : Pool := pdpPacketSetup [] fun _ => none

def packetZero : Pool := noPackets.put 0 (some (.fresh 0 ⟨[], DataArea.empty_size_lt⟩))

/-- What `pdp_packet_copy_ro` returns. -/
def copiedRo (packet : Int) (pool : Pool) : Int := (pdpPacketCopyRo packet pool).1

theorem copiedRo_eq (packet : Int) (pool : Pool) :
    copiedRo packet pool = if (pool.pdpPacketHeader packet).isSome then packet else -1 := by
  unfold copiedRo pdpPacketCopyRo
  cases pool.pdpPacketHeader packet <;> rfl

/-- The release of another packet, or of the same, does not matter to a copy. -/
theorem copiedRo_markUnused (packet p : Int) (pool : Pool) :
    copiedRo packet (pdpPacketMarkUnused p pool) = copiedRo packet pool := by
  rw [copiedRo_eq, copiedRo_eq]
  cases hp : pool.pdpPacketHeader p with
  | none => rw [pdpPacketMarkUnused_none hp]
  | some header =>
      rw [header_markUnused hp]
      split
      · next heq => rw [heq, hp]; rfl
      · rfl

theorem copiedRo_neg_one (pool : Pool) : copiedRo (-1) pool = -1 := by
  rw [copiedRo_eq]
  split <;> rfl

/-- The cells of the array, and what the object owns. -/
structure PacketLine where
  cells : List Int
  owned : Holdings
  deriving DecidableEq

namespace PacketLine

/-- `n` cells without a packet. -/
def new (n : Nat) : PacketLine := ⟨List.replicate n (-1), .empty⟩

/-- `x_packet[i]`. -/
def fetch (x : PacketLine) (i : Int) : Option Int := if 0 ≤ i then x.cells[i.toNat]? else none

/-- The packet at `i` is released, and a copy of another one stored there. -/
def replace (x : PacketLine) (i packet : Int) (pool : Pool) : Option PacketLine := do
  let old ← x.fetch i
  let copy := copiedRo packet (pdpPacketMarkUnused old pool)
  return ⟨x.cells.set i.toNat copy, (x.owned.markUnused old).receive copy⟩

def reset (x : PacketLine) : PacketLine :=
  ⟨x.cells.map fun _ => -1, x.owned.markAllUnused x.cells⟩

/-- One reference for each packet, and none for another. -/
def Kept (x : PacketLine) : Prop := x.owned.Balanced x.cells

variable {x : PacketLine} {pool : Pool} {i : Nat} {p : Int}

theorem kept_new (n : Nat) : (new n).Kept :=
  Holdings.balanced_empty fun _ hp => List.eq_of_mem_replicate hp

theorem fetch_eq (hi : i < x.cells.length) : x.fetch i = some x.cells[i] := by
  rw [fetch, if_pos (Int.natCast_nonneg i), Int.toNat_natCast, List.getElem?_eq_getElem hi]

theorem mem_of_fetch {k : Int} (h : x.fetch k = some p) : p ∈ x.cells := by
  unfold fetch at h
  split at h
  · exact List.mem_of_getElem? h
  · cases h

theorem fetch_set (hi : i < x.cells.length) (p : Int) (o : Holdings) (k : Int) :
    fetch ⟨x.cells.set i p, o⟩ k = if k = i then some p else x.fetch k := by
  unfold fetch
  by_cases h0 : 0 ≤ k
  · rw [if_pos h0, if_pos h0]
    by_cases heq : k = i
    · rw [if_pos heq, heq, Int.toNat_natCast]
      exact List.getElem?_set_self hi
    · rw [if_neg heq]
      exact List.getElem?_set_ne (by omega)
  · rw [if_neg h0, if_neg h0, if_neg (by omega)]

theorem fetch_reset {k : Int} (h0 : 0 ≤ k) (hlt : k < x.cells.length) :
    x.reset.fetch k = some (-1) := by
  have hk : k.toNat < x.cells.length := by omega
  rw [fetch, if_pos h0]
  show (x.cells.map fun _ => -1)[k.toNat]? = _
  rw [List.getElem?_map, List.getElem?_eq_getElem hk]
  rfl

theorem replace_eq (hi : i < x.cells.length) (packet : Int) (pool : Pool) :
    x.replace i packet pool = some ⟨x.cells.set i (copiedRo packet pool),
      (x.owned.markUnused x.cells[i]).receive (copiedRo packet pool)⟩ := by
  rw [replace, fetch_eq hi, Option.bind_eq_bind, Option.bind_some, copiedRo_markUnused]
  rfl

theorem Kept.replace (h : x.Kept) (hi : i < x.cells.length) (p : Int) :
    Kept ⟨x.cells.set i p, (x.owned.markUnused x.cells[i]).receive p⟩ :=
  Holdings.Balanced.replace h hi p

theorem Kept.reset (h : x.Kept) : x.reset.Kept := by
  have hcells : x.owned.Balanced (x.cells ++ []) := by rwa [List.append_nil]
  have hnone := hcells.releaseAll
  refine ⟨hnone.stray, fun p => (hnone.count p).trans ?_⟩
  split
  · rfl
  · next hp =>
      refine (List.count_eq_zero.mpr fun hmem => hp ?_).symm
      obtain ⟨-, -, rfl⟩ := List.mem_map.mp hmem
      rfl

theorem Kept.copiedRo (h : x.Kept) (hholds : pool.Holds x.owned) (hp : p ∈ x.cells) :
    copiedRo p pool = p := by
  by_cases hne : p = -1
  · rw [hne, copiedRo_neg_one]
  · rw [copiedRo_eq, if_pos (hholds p (h.mem hp hne))]

end PacketLine

end PureDataPacket
