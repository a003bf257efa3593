/-
# `PureDataPacket.Lib.Arena` — cells that are allocated and given back

An arena has cells that are live or not.  Cells that were given back are used
again first, the last one first; after them come cells that were never used.
That the two kinds of unused cell are in fact unused is part of the arena, so
that a fresh cell is fresh by construction.
-/
import Mathlib.Data.List.Nodup
import Mathlib.Data.List.Perm.Subperm
import Mathlib.Logic.Function.Basic

namespace PureDataPacket

structure Arena (α : Type) where
  cells : Nat → Option α
  free : List Nat
  bound : Nat
  nodup : free.Nodup
  free_unused : ∀ i ∈ free, cells i = none
  bound_unused : ∀ i, bound ≤ i → cells i = none
  free_lt : ∀ i ∈ free, i < bound

namespace Arena

variable {α : Type} (s : Arena α)

def empty : Arena α where
  cells := fun _ => none
  free := []
  bound := 0
  nodup := List.nodup_nil
  free_unused := fun _ _ => rfl
  bound_unused := fun _ _ => rfl
  free_lt := fun _ h => absurd h List.not_mem_nil

/-- The cell that is allocated next. -/
def next : Nat := s.free.headD s.bound

theorem next_unused : s.cells s.next = none := by
  unfold next
  cases hf : s.free with
  | nil => exact s.bound_unused _ (Nat.le_refl _)
  | cons i l => exact s.free_unused i (hf ▸ List.mem_cons_self)

theorem ne_next {i : Nat} {a : α} (h : s.cells i = some a) : i ≠ s.next := by
  rintro rfl
  rw [s.next_unused] at h
  cases h

theorem lt_bound {i : Nat} {a : α} (h : s.cells i = some a) : i < s.bound := by
  refine Nat.lt_of_not_le fun hle => ?_
  rw [s.bound_unused i hle] at h
  cases h

def alloc (a : α) : Arena α where
  cells := Function.update s.cells s.next (some a)
  free := s.free.tail
  bound := max s.bound (s.next + 1)
  nodup := s.nodup.tail
  free_unused i hi := by
    have hne : i ≠ s.next := by
      rintro rfl
      cases hf : s.free with
      | nil =>
          rw [hf] at hi
          cases hi
      | cons j l =>
          have hnd := s.nodup
          rw [hf] at hi hnd
          have hnext : s.next = j := by rw [next, hf, List.headD_cons]
          exact (List.nodup_cons.mp hnd).1 (hnext ▸ hi)
    rw [Function.update_of_ne hne]
    exact s.free_unused i (List.mem_of_mem_tail hi)
  bound_unused i hi := by
    rw [Function.update_of_ne (by omega)]
    exact s.bound_unused i (by omega)
  free_lt i hi := by
    have := s.free_lt i (List.mem_of_mem_tail hi)
    omega

/-- Write to a cell that is live. -/
def write (i : Nat) (a : α) : Arena α :=
  if h : (s.cells i).isSome then
    { s with
      cells := Function.update s.cells i (some a)
      free_unused := fun j hj => by
        rw [Function.update_of_ne]
        · exact s.free_unused j hj
        · rintro rfl
          rw [s.free_unused j hj] at h
          cases h
      bound_unused := fun j hj => by
        rw [Function.update_of_ne]
        · exact s.bound_unused j hj
        · rintro rfl
          rw [s.bound_unused j hj] at h
          cases h }
  else s

def dealloc (i : Nat) : Arena α :=
  if h : (s.cells i).isSome then
    { cells := Function.update s.cells i none
      free := i :: s.free
      bound := s.bound
      nodup := by
        refine List.nodup_cons.mpr ⟨fun hi => ?_, s.nodup⟩
        rw [s.free_unused i hi] at h
        cases h
      free_unused := fun j hj => by
        by_cases hji : j = i
        · rw [hji, Function.update_self]
        · rw [Function.update_of_ne hji]
          exact s.free_unused j ((List.mem_cons.mp hj).resolve_left hji)
      bound_unused := fun j hj => by
        by_cases hji : j = i
        · rw [hji, Function.update_self]
        · rw [Function.update_of_ne hji]
          exact s.bound_unused j hj
      free_lt := fun j hj => by
        rcases List.mem_cons.mp hj with rfl | hj
        · obtain ⟨a, ha⟩ := Option.isSome_iff_exists.mp h
          exact s.lt_bound ha
        · exact s.free_lt j hj }
  else s

@[simp] theorem cells_alloc (a : α) :
    (s.alloc a).cells = Function.update s.cells s.next (some a) := rfl

theorem cells_write {i : Nat} {a b : α} (h : s.cells i = some b) :
    (s.write i a).cells = Function.update s.cells i (some a) := by
  unfold write
  rw [dif_pos (by rw [h]; rfl)]

theorem cells_dealloc {i : Nat} {a : α} (h : s.cells i = some a) :
    (s.dealloc i).cells = Function.update s.cells i none := by
  unfold dealloc
  rw [dif_pos (by rw [h]; rfl)]

@[simp] theorem bound_write (i : Nat) (a : α) : (s.write i a).bound = s.bound := by
  unfold write
  split
  · rfl
  · rfl

/-- Different live cells are no more than the arena has. -/
theorem length_le_bound {l : List Nat} (hnd : l.Nodup) (h : ∀ i ∈ l, (s.cells i).isSome) :
    l.length ≤ s.bound := by
  have hsub : l ⊆ List.range s.bound := by
    intro i hi
    obtain ⟨a, ha⟩ := Option.isSome_iff_exists.mp (h i hi)
    exact List.mem_range.mpr (s.lt_bound ha)
  simpa only [List.length_range] using (List.subperm_of_subset hnd hsub).length_le

end Arena

end PureDataPacket
