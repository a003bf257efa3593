/-
# `PureDataPacket.Lib.Assigned` — cells that are not to be read before they are written

A row of cells of which some have been assigned.  An access to a place that is no cell, and a
read of a cell that nothing has been assigned to, have no result.

Writing can only add to what is assigned.  A routine is followed by what it needs to be assigned
when it begins and what is assigned when it ends; all else carries over by `Grows`.

| | |
| :-- | :-- |
| `Assigned` | the cell at `p` has been assigned |
| `Grows` | what was assigned still is |
| `Assigned.fetch` | a cell that has been assigned can be read |
| `assign_spec` | a cell can be assigned, and then it is |
-/
import Mathlib.Data.List.Basic
import Mathlib.Logic.Function.Basic
import Mathlib.Order.Basic

namespace PureDataPacket

/-- Cells; `none` is one that has not been assigned. -/
abbrev Row (α : Type*) := List (Option α)

namespace Row

variable {α : Type*} {r r' r'' : Row α} {p q : Int}

/-- The value of a cell that has been assigned. -/
def fetch (r : Row α) (p : Int) : Option α := if 0 ≤ p then r[p.toNat]?.join else none

def assign (r : Row α) (p : Int) (v : α) : Option (Row α) :=
  if 0 ≤ p ∧ p < r.length then some (r.set p.toNat (some v)) else none

/-- The cell at `p` has been assigned. -/
def Assigned (r : Row α) (p : Int) : Prop := 0 ≤ p ∧ ∃ v, r[p.toNat]? = some (some v)

/-- What was assigned still is. -/
structure Grows (r r' : Row α) : Prop where
  length : r'.length = r.length
  keeps : ∀ p, Assigned r p → Assigned r' p

theorem Grows.refl (r : Row α) : Grows r r := ⟨rfl, fun _ hp => hp⟩

theorem Grows.trans (h : Grows r r') (h' : Grows r' r'') : Grows r r'' :=
  ⟨h'.length.trans h.length, fun p hp => h'.keeps p (h.keeps p hp)⟩

theorem Assigned.lt (h : Assigned r p) : p < r.length := by
  obtain ⟨h0, v, hv⟩ := h
  obtain ⟨hlt, -⟩ := List.getElem?_eq_some_iff.mp hv
  omega

theorem Assigned.fetch (h : Assigned r p) : ∃ v, r.fetch p = some v := by
  obtain ⟨h0, v, hv⟩ := h
  refine ⟨v, ?_⟩
  rw [Row.fetch, if_pos h0, hv]
  rfl

theorem assign_spec (h0 : 0 ≤ p) (hp : p < r.length) (v : α) :
    ∃ r', r.assign p v = some r' ∧ Grows r r' ∧ Assigned r' p := by
  have hlt : p.toNat < r.length := by omega
  refine ⟨r.set p.toNat (some v), if_pos ⟨h0, hp⟩, ⟨List.length_set, ?_⟩, h0, v, ?_⟩
  · rintro q ⟨hq0, u, hu⟩
    refine ⟨hq0, ?_⟩
    by_cases heq : p.toNat = q.toNat
    · exact ⟨v, by rw [← heq, List.getElem?_set_self hlt]⟩
    · exact ⟨u, by rw [List.getElem?_set_ne heq, hu]⟩
  · exact List.getElem?_set_self hlt

theorem isSome_of_assigned (h : ∀ i : Nat, i < r.length → Assigned r i) : ∀ c ∈ r, c.isSome := by
  intro c hc
  obtain ⟨i, hi, rfl⟩ := List.getElem_of_mem hc
  obtain ⟨-, v, hv⟩ := h i hi
  rw [Int.toNat_natCast, List.getElem?_eq_getElem hi, Option.some.injEq] at hv
  rw [hv]
  rfl

/-! ## Rows by their contents -/

/-- `n` cells, of which `f` says what is in them. -/
def ofContents (n : Nat) (f : Nat → Option α) : Row α := (List.range n).map f

section Contents

variable {n i : Nat} {f g : Nat → Option α}

@[simp] theorem length_ofContents : (ofContents n f).length = n := by
  rw [ofContents, List.length_map, List.length_range]

theorem ofContents_congr (h : ∀ i < n, f i = g i) : ofContents n f = ofContents n g :=
  List.map_congr_left fun i hi => h i (List.mem_range.mp hi)

theorem fetch_ofContents (hi : i < n) : (ofContents n f).fetch i = f i := by
  rw [Row.fetch, if_pos (Int.natCast_nonneg i), Int.toNat_natCast, ofContents, List.getElem?_map,
    List.getElem?_range hi]
  rfl

theorem assign_ofContents (hi : i < n) (v : α) :
    (ofContents n f).assign i v = some (ofContents n (Function.update f i (some v))) := by
  have hin : 0 ≤ (i : Int) ∧ (i : Int) < (ofContents n f).length := by
    rw [length_ofContents]
    omega
  rw [assign, if_pos hin, Int.toNat_natCast, Option.some.injEq]
  refine List.ext_getElem? fun j => ?_
  unfold ofContents
  rcases Nat.lt_or_ge j n with hj | hj
  · rw [List.getElem?_map, List.getElem?_range hj, List.getElem?_set]
    by_cases heq : i = j
    · subst heq
      rw [if_pos rfl, if_pos (by simpa using hi), Option.map_some, Function.update_self]
    · rw [if_neg heq, List.getElem?_map, List.getElem?_range hj, Option.map_some, Option.map_some,
        Function.update_of_ne (fun h => heq h.symm)]
  · rw [List.getElem?_eq_none (by simpa using hj), List.getElem?_eq_none (by simpa using hj)]

theorem replicate_none (n : Nat) :
    (List.replicate n none : Row α) = ofContents n fun _ => none := by
  rw [ofContents, List.map_const', List.length_range]

theorem assign_eq_none (h : (r.length : Int) ≤ p) (v : α) : r.assign p v = none :=
  if_neg fun hin => by omega

theorem length_of_assign {v : α} (h : r.assign p v = some r') : r'.length = r.length := by
  unfold assign at h
  split at h
  · rw [← Option.some.inj h, List.length_set]
  · cases h

end Contents

end Row

end PureDataPacket
