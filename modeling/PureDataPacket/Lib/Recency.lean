/-
# `PureDataPacket.Lib.Recency` — lists in the order of last use

The elements of such a list have stamps, the times of their last use, that grow
from front to back.  A new element goes to the back and room is made at the
front; so what is removed has not been used for the longest time.

`swapToBack` is what a use should not do: the used element changes places with
the last one.  On the last two places it is the same as moving it to the back,
and on no other.

| | |
| :-- | :-- |
| `Ordered` | the stamps grow |
| `Ordered.take_lt_drop` | what is removed at the front is older than what stays |
| `ordered_swapToBack_iff` | swapping keeps the order exactly if one of the last two is used |
-/
import Mathlib.Data.List.Basic

namespace PureDataPacket

def Ordered {α : Type} (stamp : α → Nat) (l : List α) : Prop :=
  l.Pairwise fun a b => stamp a < stamp b

/-- Element `i`, which is now `used`, and the last one change places. -/
def swapToBack {α : Type} (used : α) (i : Nat) (l : List α) : List α :=
  match l.getLast? with
  | none => l
  | some last => (l.set i last).set (l.length - 1) used

section Recency

variable {α : Type} {stamp : α → Nat} {l : List α} {used : α} {i : Nat}

theorem length_swapToBack : (swapToBack used i l).length = l.length := by
  unfold swapToBack
  split
  · rfl
  · rw [List.length_set, List.length_set]

theorem mem_swapToBack {a : α} (h : a ∈ swapToBack used i l) : a ∈ l ∨ a = used := by
  unfold swapToBack at h
  split at h
  · exact Or.inl h
  · next last hlast =>
      rcases List.mem_or_eq_of_mem_set h with h | rfl
      · rcases List.mem_or_eq_of_mem_set h with h | rfl
        · exact Or.inl h
        · exact Or.inl (List.mem_of_getLast? hlast)
      · exact Or.inr rfl

theorem swapToBack_last (l : List α) (b : α) :
    swapToBack used l.length (l ++ [b]) = l ++ [used] := by
  simp [swapToBack]

theorem swapToBack_second (l : List α) (a b : α) :
    swapToBack used l.length (l ++ [a, b]) = l ++ [b, used] := by
  simp [swapToBack]

theorem Ordered.append_back (hl : Ordered stamp l) (hnew : ∀ a ∈ l, stamp a < stamp used) :
    Ordered stamp (l ++ [used]) := by
  refine List.pairwise_append.mpr ⟨hl, List.pairwise_singleton .., fun a ha b hb => ?_⟩
  rw [List.mem_singleton.mp hb]
  exact hnew a ha

theorem Ordered.drop (hl : Ordered stamp l) (n : Nat) : Ordered stamp (l.drop n) :=
  List.Pairwise.sublist (List.drop_sublist n l) hl

theorem Ordered.take_lt_drop (hl : Ordered stamp l) (n : Nat) :
    ∀ a ∈ l.take n, ∀ b ∈ l.drop n, stamp a < stamp b := by
  rw [← List.take_append_drop n l] at hl
  exact (List.pairwise_append.mp hl).2.2

/-- A list that is at least as long as its last two places. -/
theorem last_two (hi : i < l.length) (hlen : l.length ≤ i + 2) :
    (∃ init b, l = init ++ [b] ∧ i = init.length) ∨
      ∃ init a b, l = init ++ [a, b] ∧ i = init.length := by
  rcases List.eq_nil_or_concat l with rfl | ⟨front, b, rfl⟩
  · cases hi
  · rcases Nat.lt_or_ge i front.length with hlt | hge
    · rcases List.eq_nil_or_concat front with rfl | ⟨init, a, rfl⟩
      · cases hlt
      · refine Or.inr ⟨init, a, b, by simp, ?_⟩
        simp at hlt hlen
        omega
    · refine Or.inl ⟨front, b, by simp, ?_⟩
      simp at hi
      omega

theorem ordered_swapToBack_iff (hl : Ordered stamp l) (hi : i < l.length)
    (hnew : ∀ a ∈ l, stamp a < stamp used) :
    Ordered stamp (swapToBack used i l) ↔ l.length ≤ i + 2 := by
  constructor
  · intro h
    by_contra hlt
    have hlast : l.getLast? = some (l.get ⟨l.length - 1, by omega⟩) := by
      rw [List.getLast?_eq_getElem?, List.getElem?_eq_getElem (by omega)]
      rfl
    -- the last element is now in front of element `i + 1`
    have hswap := List.pairwise_iff_getElem.mp h i (i + 1)
      (by rw [length_swapToBack]; omega) (by rw [length_swapToBack]; omega) (Nat.lt_succ_self i)
    have hold := List.pairwise_iff_getElem.mp hl (i + 1) (l.length - 1) (by omega) (by omega)
      (by omega)
    simp only [swapToBack, hlast] at hswap
    rw [List.getElem_set_ne (by omega), List.getElem_set_self,
      List.getElem_set_ne (by omega), List.getElem_set_ne (by omega)] at hswap
    exact Nat.lt_asymm hswap hold
  · intro hlen
    rcases last_two hi hlen with ⟨init, b, rfl, rfl⟩ | ⟨init, a, b, rfl, rfl⟩
    · rw [swapToBack_last]
      have hinit : Ordered stamp init := (List.pairwise_append.mp hl).1
      exact hinit.append_back fun a ha => hnew a (List.mem_append_left _ ha)
    · rw [swapToBack_second]
      have hinit : Ordered stamp (init ++ [b]) :=
        List.Pairwise.sublist (List.Sublist.append_left (by simp) init) hl
      have hback : Ordered stamp ((init ++ [b]) ++ [used]) := by
        refine hinit.append_back fun c hc => hnew c ?_
        rcases List.mem_append.mp hc with hc | hc
        · exact List.mem_append_left _ hc
        · rw [List.mem_singleton.mp hc]
          simp
      rwa [List.append_assoc] at hback

end Recency

end PureDataPacket
