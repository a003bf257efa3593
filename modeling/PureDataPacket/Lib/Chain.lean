/-
# `PureDataPacket.Lib.Chain` — chains of cells, from a link to the end

A chain is what is passed on the way along `next` until there is no next cell.
That there is such a list says that the way ends; no cell is then passed twice,
since the rest of the way depends on the cell alone.

| | |
| :-- | :-- |
| `Chained` | from this link, these cells are passed, and then the way ends |
| `Chained.nodup` | none is passed twice |
| `Chained.append` | the last cell is linked to another chain |
-/
import Mathlib.Data.List.Nodup
import Mathlib.Logic.Function.Basic

namespace PureDataPacket

/-- From the link `p`, the way along `next` passes the cells `l` and ends. -/
inductive Chained (next : Nat → Option Nat) : Option Nat → List Nat → Prop
  | nil : Chained next none []
  | cons {p : Nat} {l : List Nat} : Chained next (next p) l → Chained next (some p) (p :: l)

namespace Chained

variable {next next' : Nat → Option Nat} {p : Option Nat} {c : Nat} {l l' : List Nat}

theorem head (h : Chained next p l) : p = l.head? := by
  cases h with
  | nil => rfl
  | cons _ => rfl

theorem tail (h : Chained next p (c :: l)) : Chained next (next c) l := by
  cases h with
  | cons h => exact h

theorem unique (h : Chained next p l) (h' : Chained next p l') : l = l' := by
  induction h generalizing l' with
  | nil =>
      cases h' with
      | nil => rfl
  | cons _ ih =>
      cases h' with
      | cons h' => rw [ih h']

theorem suffix {before : List Nat} (h : Chained next p (before ++ c :: l)) :
    Chained next (some c) (c :: l) := by
  induction before generalizing p with
  | nil =>
      cases h with
      | cons h => exact .cons h
  | cons _ before ih => exact ih h.tail

/-- No cell is passed twice: the way from it would be its own part. -/
theorem nodup (h : Chained next p l) : l.Nodup := by
  induction h with
  | nil => exact List.nodup_nil
  | @cons p l h ih =>
      refine List.nodup_cons.mpr ⟨fun hmem => ?_, ih⟩
      obtain ⟨before, after, rfl⟩ := List.append_of_mem hmem
      have hsame := (Chained.cons h).unique h.suffix
      have hlength := congrArg List.length hsame
      simp only [List.length_cons, List.length_append] at hlength
      omega

theorem congr (h : Chained next p l) (hsame : ∀ c ∈ l, next' c = next c) : Chained next' p l := by
  induction h with
  | nil => exact .nil
  | @cons p l _ ih =>
      have hp := hsame p List.mem_cons_self
      have hrest := ih fun c hc => hsame c (List.mem_cons_of_mem p hc)
      exact .cons (hp ▸ hrest)

theorem append {q : Option Nat} (h : Chained next p (l ++ [c])) (hq : Chained next q l')
    (hapart : ∀ d ∈ l', d ≠ c) :
    Chained (Function.update next c q) p (l ++ c :: l') := by
  have hnodup := h.nodup
  induction l generalizing p with
  | nil =>
      rw [h.head]
      refine .cons ?_
      rw [Function.update_self]
      exact hq.congr fun d hd => Function.update_of_ne (hapart d hd) ..
  | cons d l ih =>
      have hne : d ≠ c := by
        rintro rfl
        exact (List.nodup_cons.mp hnodup).1 (List.mem_append_right l List.mem_cons_self)
      rw [h.head]
      refine .cons ?_
      rw [Function.update_of_ne hne]
      exact ih h.tail (List.nodup_cons.mp hnodup).2

/-- A cell that is not in the chain is put before it. -/
theorem push (h : Chained next p l) (hc : c ∉ l) :
    Chained (Function.update next c p) (some c) (c :: l) := by
  refine .cons ?_
  rw [Function.update_self]
  refine h.congr fun d hd => Function.update_of_ne ?_ ..
  rintro rfl
  exact hc hd

end Chained

end PureDataPacket
