/-
# `PureDataPacket.Lib.Exchange` — memory in which pieces change places

`Moved` says that each place of a memory has what was in another place before.  To exchange two
pieces is such a move, and so are several exchanges one after the other: two pointers that
approach each other and exchange what they meet leave a mirror image.

Pieces of the same size are numbered.  `pieceMove` moves the pieces and keeps what is in them
together.

| | |
| :-- | :-- |
| `Moved` | place `i` has what was in place `σ i` |
| `exchanged_add` | a piece is exchanged part by part |
| `piece_iff` | the place of an element says which piece it is in |
| `exchanged_pieces` | to exchange two pieces as wholes |
| `swapped_mirrored` | the outermost two of the pieces, and those between them |
-/
import Mathlib.Tactic.Ring
import PureDataPacket.Lib.Bytes

namespace PureDataPacket

variable {α : Type}

/-! ## Moves -/

/-- Place `i` has what was in place `σ i`. -/
structure Moved (σ : Nat → Nat) (m out : List α) : Prop where
  length : out.length = m.length
  get : ∀ i < m.length, out[i]? = m[σ i]?

namespace Moved

variable {σ τ : Nat → Nat} {m m' out : List α}

theorem lt (h : Moved σ m out) {i : Nat} (hi : i < m.length) : σ i < m.length := by
  have hget := h.get i hi
  by_contra hge
  rw [List.getElem?_eq_none (Nat.le_of_not_lt hge), List.getElem?_eq_none_iff, h.length] at hget
  omega

theorem refl (m : List α) : Moved id m m := ⟨rfl, fun _ _ => rfl⟩

theorem trans (h : Moved σ m m') (h' : Moved τ m' out) : Moved (fun i => σ (τ i)) m out where
  length := h'.length.trans h.length
  get i hi := by
    have hi' : i < m'.length := h.length ▸ hi
    rw [h'.get i hi', h.get _ (h.length ▸ h'.lt hi')]

theorem congr (h : Moved σ m out) (hτ : ∀ i < m.length, σ i = τ i) : Moved τ m out where
  length := h.length
  get i hi := by rw [h.get i hi, hτ i hi]

theorem unique (h : Moved σ m out) (h' : Moved σ m m') : out = m' := by
  refine List.ext_getElem? fun i => ?_
  rcases Nat.lt_or_ge i m.length with hi | hi
  · rw [h.get i hi, h'.get i hi]
  · rw [List.getElem?_eq_none (h.length ▸ hi), List.getElem?_eq_none (h'.length ▸ hi)]

end Moved

/-! ## Exchanging two pieces -/

/-- `c` elements from `p` on change places with those from `q` on.  `none` is an access outside
the memory. -/
def exchange (c p q : Nat) (m : List α) : Option (List α) :=
  if p + c ≤ m.length ∧ q + c ≤ m.length then
    let tmp := (m.drop p).take c
    let m := blit m p ((m.drop q).take c)
    some (blit m q tmp)
  else none

/-- Where the elements of the two pieces have been. -/
def exchanged (c p q i : Nat) : Nat :=
  if p ≤ i ∧ i < p + c then q + (i - p) else if q ≤ i ∧ i < q + c then p + (i - q) else i

section Exchange

variable {c d p q : Nat} {m : List α}

theorem exchange_spec (hpq : p + c ≤ q) (hq : q + c ≤ m.length) :
    ∃ out, exchange c p q m = some out ∧ Moved (exchanged c p q) m out := by
  have hlen : ∀ k, k + c ≤ m.length → ((m.drop k).take c).length = c := by
    intro k hk
    rw [List.length_take, List.length_drop]
    omega
  have hfirst : p + ((m.drop q).take c).length ≤ m.length := by
    rw [hlen q hq]
    omega
  have hsecond : q + ((m.drop p).take c).length ≤ (blit m p ((m.drop q).take c)).length := by
    rw [hlen p (by omega), length_blit hfirst]
    exact hq
  refine ⟨_, if_pos ⟨by omega, hq⟩, (length_blit hsecond).trans (length_blit hfirst),
    fun i _ => ?_⟩
  rw [getElem?_blit hsecond, getElem?_blit hfirst, hlen p (by omega), hlen q hq]
  unfold exchanged
  by_cases hp : p ≤ i ∧ i < p + c
  · rw [if_neg (by omega), if_pos hp, if_pos hp, List.getElem?_take_of_lt (by omega),
      List.getElem?_drop]
  · rw [if_neg hp, if_neg hp]
    by_cases hq : q ≤ i ∧ i < q + c
    · rw [if_pos hq, if_pos hq, List.getElem?_take_of_lt (by omega), List.getElem?_drop]
    · rw [if_neg hq, if_neg hq]

theorem exchanged_add (hpq : p + (c + d) ≤ q) (i : Nat) :
    exchanged c p q (exchanged d (p + c) (q + c) i) = exchanged (c + d) p q i := by
  unfold exchanged
  -- The outer `if` is about where the inner one has come from.
  split
  · split_ifs <;> omega
  · split
    · split_ifs <;> omega
    · split_ifs <;> omega

end Exchange

/-! ## Pieces -/

/-- The elements of piece `r`, of `size` elements, have been in piece `ρ r`. -/
def pieceMove (size : Nat) (ρ : Nat → Nat) (i : Nat) : Nat := size * ρ (i / size) + i % size

def swapped (p q r : Nat) : Nat := if r = p then q else if r = q then p else r

/-- The pieces from `lo` to `hi` are in the opposite order. -/
def mirrored (lo hi r : Nat) : Nat := if lo ≤ r ∧ r ≤ hi then lo + hi - r else r

section Pieces

variable {size p q lo hi : Nat} {ρ τ : Nat → Nat} {m out : List α}

theorem pieceMove_eq {r x : Nat} (hx : x < size) :
    pieceMove size ρ (size * r + x) = size * ρ r + x := by
  unfold pieceMove
  rw [Nat.mul_add_div (by omega), Nat.div_eq_of_lt hx, Nat.add_zero, Nat.mul_add_mod,
    Nat.mod_eq_of_lt hx]

theorem pieceMove_comp (hsize : 0 < size) (i : Nat) :
    pieceMove size ρ (pieceMove size τ i) = pieceMove size (fun r => ρ (τ r)) i :=
  pieceMove_eq (Nat.mod_lt i hsize)

theorem piece_iff {r k x : Nat} (hx : x < size) :
    size * k ≤ size * r + x ∧ size * r + x < size * k + size ↔ r = k := by
  constructor
  · rintro ⟨h0, h1⟩
    have hle : k < r + 1 := Nat.lt_of_mul_lt_mul_left (a := size) (by rw [Nat.mul_succ]; omega)
    have hge : r < k + 1 := Nat.lt_of_mul_lt_mul_left (a := size) (by rw [Nat.mul_succ]; omega)
    omega
  · rintro rfl
    omega

theorem exchanged_pieces (hsize : 0 < size) (i : Nat) :
    exchanged size (size * p) (size * q) i = pieceMove size (swapped p q) i := by
  obtain ⟨r, x, hx, rfl⟩ : ∃ r x, x < size ∧ i = size * r + x :=
    ⟨i / size, i % size, Nat.mod_lt i hsize, (Nat.div_add_mod i size).symm⟩
  rw [pieceMove_eq hx]
  unfold exchanged swapped
  simp only [piece_iff hx]
  split
  · next h => rw [h, Nat.add_sub_cancel_left]
  · split
    · next h => rw [h, Nat.add_sub_cancel_left]
    · rfl

theorem swapped_mirrored (h : lo < hi) (r : Nat) :
    swapped lo hi (mirrored (lo + 1) (hi - 1) r) = mirrored lo hi r := by
  unfold swapped mirrored
  split
  · split_ifs <;> omega
  · split_ifs <;> omega

theorem mirrored_of_le (h : hi ≤ lo) (r : Nat) : mirrored lo hi r = r := by
  unfold mirrored
  split
  · omega
  · rfl

end Pieces

end PureDataPacket
