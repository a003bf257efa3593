/-
# `PureDataPacket.Object.Rawin` — a packet is filled from a pipe

`read_packet` creates a packet and reads from a pipe until it is full.  The bytes of the pipe are
numbered from the first one that this call takes, and a byte of the packet is kept as the number
of the byte that was stored there.

What the system calls answer is given for each round of the loop.  A round has no result when
`read` writes outside of the packet, or `left` is no `int` any more.
-/
import PureDataPacket.Kernel.Packet
import PureDataPacket.Lib.Assigned

namespace PureDataPacket

/-! ## The loop -/

inductive ReadAnswer where
  /-- -1 -/
  | failed
  /-- The pipe has `n` bytes, or has been closed if that is 0; `read` takes what it is asked for,
  or all. -/
  | bytes (n : Nat)
  deriving DecidableEq

inductive SelectAnswer where
  /-- -1 -/
  | failed
  | timeout
  | ready (read : ReadAnswer)
  deriving DecidableEq

/-- A round of the inner loop: `x_giveup`, and the answers of the system. -/
structure ReadRound where
  giveup : Bool
  select : SelectAnswer
  deriving DecidableEq

inductive ReadStatus where
  | reading
  /-- the packet is returned -/
  | full
  /-- -1 is returned -/
  | closed
  deriving DecidableEq

/-- The variables of `read_packet`. -/
structure ReadPacket where
  /-- there is a packet -/
  created : Bool
  /-- its bytes -/
  packet : Row Nat
  /-- `data`, from the first byte of the packet on -/
  data : Int
  left : Nat
  /-- how many bytes were taken from the pipe -/
  taken : Nat
  /-- `pdp_packet_mark_unused` -/
  released : Bool
  status : ReadStatus
  deriving DecidableEq

namespace ReadPacket

/-- The test of `while (left)`. -/
def loop (x : ReadPacket) : ReadPacket := if x.left = 0 then { x with status := .full } else x

/-- The variables before the loop; `pdp_factory_newpacket` returns -1, or a packet. -/
def start : Option DataArea → ReadPacket
  | none => ⟨false, [], 0, 0, 0, false, .closed⟩
  | some a => loop ⟨true, List.replicate a.size none, 0, a.size, 0, false, .reading⟩

/-- `read` stores `n` bytes at `p`. -/
def store : (n : Nat) → (p : Int) → (taken : Nat) → Row Nat → Option (Row Nat)
  | 0, _, _, r => some r
  | n + 1, p, taken, r => do
      let r ← r.assign p taken
      store n (p + 1) (taken + 1) r

def round (r : ReadRound) (x : ReadPacket) : Option ReadPacket :=
  if x.status ≠ .reading then some x
  else if r.giveup then some { x with released := true, status := .closed }
  else
    match r.select with
    | .failed => some { x with status := .closed }
    | .timeout => some x
    | .ready .failed =>
        if x.left + 1 < 2 ^ 31 then
          some (loop { x with data := x.data - 1, left := x.left + 1 })
        else none
    | .ready (.bytes available) =>
        let bytes := min available x.left
        if bytes = 0 then some { x with status := .closed }
        else do
          let packet ← store bytes x.data x.taken x.packet
          return loop { x with
            packet := packet
            data := x.data + bytes
            left := x.left - bytes
            taken := x.taken + bytes }

/-- `read_packet`, in some rounds. -/
def rounds : List ReadRound → ReadPacket → Option ReadPacket
  | [], x => some x
  | r :: l, x => (x.round r).bind (rounds l)

end ReadPacket

/-! ## What it is meant to do -/

/-- A packet is returned only when it has been filled with consecutive bytes, and released
otherwise. -/
structure ReadPacket.Right (x : ReadPacket) : Prop where
  full : x.status = .full → x.released = false ∧ ∃ first, ∀ i : Nat, i < x.packet.length →
    x.packet.fetch i = some (first + i)
  closed : x.status = .closed → x.created = true → x.released = true

/-- No system call fails, and the pipe is not closed. -/
def ReadRound.Good (r : ReadRound) : Prop :=
  r.giveup = true ∨ r.select = .timeout ∨ ∃ n, 0 < n ∧ r.select = .ready (.bytes n)

section Filling

variable {x : ReadPacket} {r : ReadRound} {l : List ReadRound} {n k size : Nat}

/-- The first bytes of the packet, up to `k`, are there. -/
def filledTo (size k : Nat) : Row Nat := .ofContents size fun i => if i < k then some i else none

theorem assign_filledTo (hk : k < size) :
    (filledTo size k).assign k k = some (filledTo size (k + 1)) := by
  rw [filledTo, Row.assign_ofContents hk, filledTo, Option.some.injEq]
  refine Row.ofContents_congr fun i _ => ?_
  by_cases heq : i = k
  · subst heq
    rw [Function.update_self, if_pos (Nat.lt_succ_self i)]
  · rw [Function.update_of_ne heq]
    by_cases hlt : i < k
    · rw [if_pos hlt, if_pos (by omega)]
    · rw [if_neg hlt, if_neg (by omega)]

theorem store_filledTo (hn : k + n ≤ size) :
    ReadPacket.store n k k (filledTo size k) = some (filledTo size (k + n)) := by
  induction n generalizing k with
  | zero => rfl
  | succ n ih =>
      have hrest := ih (k := k + 1) (by omega)
      rw [Int.natCast_succ] at hrest
      rw [ReadPacket.store, assign_filledTo (by omega), Option.bind_eq_bind, Option.bind_some,
        hrest, Nat.add_right_comm, Nat.add_assoc]

/-- A packet of `size` bytes, wherever the loop is.  As many bytes as were taken are in it. -/
structure Filling (size : Nat) (x : ReadPacket) : Prop where
  packet : x.packet = filledTo size x.taken
  data : x.data = x.taken
  left : x.taken + x.left = size
  full : x.status = .full → x.left = 0 ∧ x.released = false
  reading : x.status = .reading → 0 < x.left ∧ x.released = false
  closed : x.status = .closed → x.released = true

namespace Filling

/-- The test of the loop, in a round that has not ended. -/
theorem loop (hpacket : x.packet = filledTo size x.taken) (hdata : x.data = x.taken)
    (hleft : x.taken + x.left = size) (hreading : x.status = .reading)
    (hreleased : x.released = false) : Filling size x.loop := by
  have hclosed : x.status ≠ .closed := fun he => by cases hreading.symm.trans he
  have hfull : x.status ≠ .full := fun he => by cases hreading.symm.trans he
  unfold ReadPacket.loop
  split
  · next h0 =>
      exact ⟨hpacket, hdata, hleft, fun _ => ⟨h0, hreleased⟩, (fun he => by cases he),
        fun he => by cases he⟩
  · next h0 =>
      exact ⟨hpacket, hdata, hleft, fun he => absurd he hfull,
        fun _ => ⟨Nat.pos_of_ne_zero h0, hreleased⟩, fun he => absurd he hclosed⟩

theorem giveup (h : Filling size x) :
    Filling size { x with released := true, status := .closed } :=
  ⟨h.packet, h.data, h.left, (fun he => by cases he), (fun he => by cases he), fun _ => rfl⟩

theorem round (h : Filling size x) (hgood : r.Good) :
    ∃ x', x.round r = some x' ∧ Filling size x' := by
  unfold ReadPacket.round
  by_cases hreading : x.status = .reading
  · obtain ⟨hpos, hreleased⟩ := h.reading hreading
    rw [if_neg (not_not.mpr hreading)]
    split
    · exact ⟨_, rfl, h.giveup⟩
    · next hgiveup =>
        rcases hgood with hgood | htimeout | ⟨n, hn, hready⟩
        · exact absurd hgood hgiveup
        · rw [htimeout]
          exact ⟨x, rfl, h⟩
        · have hle : min n x.left ≤ x.left := Nat.min_le_right _ _
          have hbytes : min n x.left ≠ 0 := by omega
          have hleft := h.left
          rw [hready]
          dsimp only
          rw [if_neg hbytes, h.packet, h.data, store_filledTo (by omega)]
          refine ⟨_, rfl, loop rfl ?_ ?_ hreading hreleased⟩
          · exact (Int.natCast_add _ _).symm
          · show x.taken + min n x.left + (x.left - min n x.left) = size
            omega
  · rw [if_pos hreading]
    exact ⟨x, rfl, h⟩

theorem rounds (h : Filling size x) (hgood : ∀ r ∈ l, r.Good) :
    ∃ x', ReadPacket.rounds l x = some x' ∧ Filling size x' := by
  induction l generalizing x with
  | nil => exact ⟨x, rfl, h⟩
  | cons r l ih =>
      obtain ⟨x₁, hround, h₁⟩ := h.round (hgood r List.mem_cons_self)
      obtain ⟨x', hrounds, h'⟩ := ih h₁ fun r hr => hgood r (List.mem_cons_of_mem _ hr)
      refine ⟨x', ?_, h'⟩
      rw [ReadPacket.rounds, hround, Option.bind_some, hrounds]

theorem start {a : DataArea} : Filling a.size (ReadPacket.start (some a)) :=
  loop ((Row.replicate_none _).trans <| Row.ofContents_congr fun i _ =>
    (if_neg (Nat.not_lt_zero i)).symm) rfl (Nat.zero_add _) rfl rfl

theorem right (h : Filling size x) : x.Right where
  full hfull := by
    obtain ⟨hleft, hreleased⟩ := h.full hfull
    refine ⟨hreleased, 0, fun i hi => ?_⟩
    have htaken := h.left
    rw [h.packet, filledTo, Row.length_ofContents] at hi
    rw [h.packet, filledTo, Row.fetch_ofContents hi, if_pos (by omega), Nat.zero_add]
  closed hclosed _ := h.closed hclosed

end Filling

end Filling

/-- Once it is not reading it stays as it is. -/
theorem rounds_start_none (l : List ReadRound) :
    ReadPacket.rounds l (.start none) = some (.start none) := by
  induction l with
  | nil => rfl
  | cons r l ih => exact ih

/-- As long as no call fails and the pipe stays open, whatever `x_giveup`. -/
theorem readPacket_right (packet : Option DataArea) (l : List ReadRound)
    (hgood : ∀ r ∈ l, r.Good) :
    ∃ x, ReadPacket.rounds l (.start packet) = some x ∧ x.Right := by
  cases packet with
  | none => exact ⟨_, rounds_start_none l, (fun he => by cases he), fun _ he => by cases he⟩
  | some a =>
      obtain ⟨x, hrounds, h⟩ := Filling.start.rounds hgood
      exact ⟨x, hrounds, h.right⟩

theorem twoByteArea_size_lt : ([0, 0] : List UInt8).length + pdpHeaderSize < 2 ^ 31 := by decide

def twoByteArea : DataArea := ⟨[0, 0], twoByteArea_size_lt⟩

/-- The bytes arrive one at a time. -/
theorem readPacket_right_twoBytes :
    ∃ x, ReadPacket.rounds
        [⟨false, .ready (.bytes 1)⟩, ⟨false, .timeout⟩, ⟨false, .ready (.bytes 5)⟩]
        (.start (some twoByteArea)) = some x ∧ x.Right :=
  readPacket_right (some twoByteArea) _ fun r hr => by
    rcases List.mem_cons.mp hr with rfl | hr
    · exact .inr (.inr ⟨1, by decide, rfl⟩)
    rcases List.mem_cons.mp hr with rfl | hr
    · exact .inr (.inl rfl)
    · obtain rfl := List.mem_singleton.mp hr
      exact .inr (.inr ⟨5, by decide, rfl⟩)

/-- The packet is kept when the pipe is closed, and when `select` fails; after `read` has failed
the first byte is written before the packet. -/
theorem not_readPacket_right :
    (∃ x, ReadPacket.rounds [⟨false, .ready (.bytes 0)⟩] (.start (some twoByteArea)) = some x ∧
      ¬x.Right) ∧
    (∃ x, ReadPacket.rounds [⟨false, .failed⟩] (.start (some twoByteArea)) = some x ∧
      ¬x.Right) ∧
    ReadPacket.rounds [⟨false, .ready .failed⟩, ⟨false, .ready (.bytes 1)⟩]
      (.start (some twoByteArea)) = none :=
  ⟨⟨_, rfl, fun h => Bool.false_ne_true (h.closed rfl rfl)⟩,
    ⟨_, rfl, fun h => Bool.false_ne_true (h.closed rfl rfl)⟩, rfl⟩

end PureDataPacket
