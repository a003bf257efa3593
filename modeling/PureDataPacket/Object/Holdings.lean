/-
# `PureDataPacket.Object.Holdings` — the references of an object and its cells

An object takes a reference with every copy or conversion and gives one up with
`pdp_packet_mark_unused`.  What it owns is kept beside its cells, as ghost state: a handler has
done its part when there is one reference for every cell that is not -1, and no packet was
released or read that the object had no reference to.
-/
import Mathlib.Data.List.Perm.Basic
import Mathlib.Data.List.Count

namespace PureDataPacket

/-- What an object owns. -/
structure Holdings where
  refs : List Int
  /-- a packet was released or read that the object did not own -/
  stray : Bool
  deriving DecidableEq

namespace Holdings

def empty : Holdings := ⟨[], false⟩

/-- `pdp_packet_mark_unused`.  A cell without a packet has -1. -/
def markUnused (p : Int) (o : Holdings) : Holdings where
  refs := if p = -1 then o.refs else o.refs.erase p
  stray := o.stray || (p ≠ -1 && p ∉ o.refs)

/-- A copy or a conversion returns `p`. -/
def receive (p : Int) (o : Holdings) : Holdings where
  refs := if p = -1 then o.refs else p :: o.refs
  stray := o.stray

/-- The header or the data of `p` is looked at. -/
def read (p : Int) (o : Holdings) : Holdings where
  refs := o.refs
  stray := o.stray || p ∉ o.refs

/-- `pdp_packet_mark_unused` for each of a row of cells. -/
def markAllUnused (cells : List Int) (o : Holdings) : Holdings :=
  cells.foldl (fun o p => o.markUnused p) o

/-- One reference for each cell that is not -1. -/
structure Balanced (o : Holdings) (cells : List Int) : Prop where
  stray : o.stray = false
  count : ∀ p, o.refs.count p = if p = -1 then 0 else cells.count p

variable {o : Holdings} {cells cells' : List Int} {p : Int}

theorem balanced_empty (h : ∀ p ∈ cells, p = -1) : Balanced empty cells where
  stray := rfl
  count p := by
    split
    · rfl
    · next hp => exact (List.count_eq_zero.mpr fun hmem => hp (h p hmem)).symm

namespace Balanced

theorem perm (h : Balanced o cells) (hperm : cells.Perm cells') : Balanced o cells' where
  stray := h.stray
  count p := by rw [h.count p, hperm.count_eq]

theorem mem (h : Balanced o cells) (hp : p ∈ cells) (hne : p ≠ -1) : p ∈ o.refs := by
  rw [← List.count_pos_iff, h.count p, if_neg hne]
  exact List.count_pos_iff.mpr hp

theorem release (h : Balanced o (p :: cells)) : Balanced (o.markUnused p) cells := by
  unfold markUnused
  by_cases hp : p = -1
  · subst hp
    refine ⟨by simp [h.stray], fun q => ?_⟩
    rw [if_pos rfl, h.count q]
    split
    · rfl
    · next hq => rw [List.count_cons_of_ne (Ne.symm hq)]
  · have hmem : p ∈ o.refs := h.mem List.mem_cons_self hp
    refine ⟨by simp [h.stray, hmem], fun q => ?_⟩
    have hcount := h.count q
    rw [if_neg hp, List.count_erase, hcount]
    split
    · exact Nat.zero_sub _
    · by_cases heq : q = p
      · subst heq
        rw [List.count_cons_self, beq_self_eq_true, if_pos rfl, Nat.add_sub_cancel]
      · rw [List.count_cons_of_ne (Ne.symm heq), beq_eq_false_iff_ne.mpr (Ne.symm heq),
          if_neg Bool.false_ne_true, Nat.sub_zero]

theorem take (h : Balanced o cells) (p : Int) : Balanced (o.receive p) (p :: cells) := by
  unfold receive
  by_cases hp : p = -1
  · subst hp
    refine ⟨h.stray, fun q => ?_⟩
    rw [if_pos rfl, h.count q]
    split
    · rfl
    · next hq => rw [List.count_cons_of_ne (Ne.symm hq)]
  · refine ⟨h.stray, fun q => ?_⟩
    rw [if_neg hp, List.count_cons, List.count_cons, h.count q]
    split
    · next hq =>
        subst hq
        rw [beq_eq_false_iff_ne.mpr hp, if_neg Bool.false_ne_true]
    · rfl

theorem look (h : Balanced o cells) (hp : p ∈ cells) (hne : p ≠ -1) :
    Balanced (o.read p) cells where
  stray := by simp [read, h.stray, h.mem hp hne]
  count := h.count

theorem drop (h : Balanced o (-1 :: cells)) : Balanced o cells where
  stray := h.stray
  count p := by
    rw [h.count p]
    split
    · rfl
    · next hp => rw [List.count_cons_of_ne (Ne.symm hp)]

theorem cons (h : Balanced o cells) : Balanced o (-1 :: cells) where
  stray := h.stray
  count p := by
    rw [h.count p]
    split
    · rfl
    · next hp => rw [List.count_cons_of_ne (Ne.symm hp)]

theorem releaseAll {row : List Int} (h : Balanced o (row ++ cells)) :
    Balanced (o.markAllUnused row) cells := by
  induction row generalizing o with
  | nil => exact h
  | cons p row ih => exact ih (release h)

theorem refs_eq_nil (h : Balanced o []) : o.refs = [] := by
  refine List.eq_nil_iff_forall_not_mem.mpr fun p hp => ?_
  have hpos := List.count_pos_iff.mpr hp
  rw [h.count p] at hpos
  split at hpos
  · omega
  · rw [List.count_nil] at hpos
    omega

/-- One cell of a row is given up and filled again. -/
theorem replace {i : Nat} (h : Balanced o cells) (hi : i < cells.length) (p : Int) :
    Balanced ((o.markUnused cells[i]).receive p) (cells.set i p) :=
  ((h.perm (List.getElem_cons_eraseIdx_perm hi).symm).release.take p).perm
    (List.set_perm_cons_eraseIdx hi p).symm

end Balanced

end Holdings

end PureDataPacket
