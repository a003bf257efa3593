/-
# `PureDataPacket.Object.Custody` — one reference for each cell

What the object owns is counted against what is in its cells: every operation that
fills a cell has a reference for it, and every reference is released with its cell.
-/
import PureDataPacket.Lib.Cells
import PureDataPacket.Object.Base

namespace PureDataPacket

namespace BaseState

/-! ## Two rows of cells -/

/-- The cells of two rows, as `cells` has them. -/
def cellsOf (f g : Nat → Int) : List Int :=
  (List.range maxNbPdpBaseInlets).flatMap fun i => [f i, g i]

theorem cells_eq (s : BaseState) : s.cells = cellsOf s.packet s.packetNext := rfl

/-- How often `p` is in the first `n` cells of both rows. -/
theorem count_range (f g : Nat → Int) (p : Int) (n : Nat) :
    ((List.range (n + 1)).flatMap fun j => [f j, g j]).count p =
      ((List.range n).flatMap fun j => [f j, g j]).count p +
        ((if f n = p then 1 else 0) + if g n = p then 1 else 0) := by
  rw [List.range_succ, List.flatMap_append, List.count_append]
  simp only [List.flatMap_cons, List.flatMap_nil, List.append_nil, List.count_cons,
    List.count_nil, beq_iff_eq]
  omega

theorem count_cells_update {f g : Nat → Int} {i : Nat} (hi : i < maxNbPdpBaseInlets) (p v : Int) :
    (cellsOf (Function.update f i v) g).count p + (if f i = p then 1 else 0) =
      (cellsOf f g).count p + if v = p then 1 else 0 := by
  have h := count_flatMap_range (f := fun j => [f j, g j])
    (g := fun j => [Function.update f i v j, g j]) (i := i)
    (fun j hj => by rw [Function.update_of_ne hj]) maxNbPdpBaseInlets p
  simp only [hi, if_true, Function.update_self, List.count_cons, List.count_nil, beq_iff_eq] at h
  unfold cellsOf
  omega

theorem count_cells_swap (f g : Nat → Int) (p : Int) :
    (cellsOf f g).count p = (cellsOf g f).count p := by
  unfold cellsOf
  induction maxNbPdpBaseInlets with
  | zero => rfl
  | succ n ih =>
      rw [count_range, count_range, ih]
      omega

theorem count_cells_update_next {f g : Nat → Int} {i : Nat} (hi : i < maxNbPdpBaseInlets)
    (p v : Int) :
    (cellsOf f (Function.update g i v)).count p + (if g i = p then 1 else 0) =
      (cellsOf f g).count p + if v = p then 1 else 0 := by
  rw [count_cells_swap, count_cells_swap f g]
  exact count_cells_update hi p v

theorem mem_cells {f g : Nat → Int} {i : Nat} (hi : i < maxNbPdpBaseInlets) : f i ∈ cellsOf f g :=
  List.mem_flatMap.mpr ⟨i, List.mem_range.mpr hi, List.mem_cons_self⟩

/-! ## Custody -/

/-- There is one reference for each cell that is not -1, and none was released that was not
there. -/
structure Owns (refs : List Int) (twice : Bool) (f g : Nat → Int) : Prop where
  count_eq : ∀ p, p ≠ -1 → refs.count p = (cellsOf f g).count p
  never_twice : twice = false

/-- The references and the cells of a state. -/
def Custody (s : BaseState) : Prop := Owns s.refs s.releasedTwice s.packet s.packetNext

section Custody

variable {refs : List Int} {twice : Bool} {f g : Nat → Int} {i : Nat}

theorem Owns.mem_refs (h : Owns refs twice f g) {p : Int} (hp : p ∈ cellsOf f g) (hne : p ≠ -1) :
    p ∈ refs := by
  rw [← List.count_pos_iff, h.count_eq p hne]
  exact List.count_pos_iff.mpr hp

theorem Owns.release (h : Owns refs twice f g) (hi : i < maxNbPdpBaseInlets) :
    Owns (if f i = -1 then refs else refs.erase (f i))
      (twice || (f i ≠ -1 && f i ∉ refs)) (Function.update f i (-1)) g where
  count_eq := by
    intro p hp
    have hcells := count_cells_update (f := f) (g := g) hi p (-1)
    have hcount := h.count_eq p hp
    rw [if_neg (Ne.symm hp)] at hcells
    split
    · next hnone =>
        rw [if_neg (by rw [hnone]; exact Ne.symm hp)] at hcells
        omega
    · rw [List.count_erase]
      simp only [beq_iff_eq]
      omega
  never_twice := by
    rw [h.never_twice, Bool.false_or, Bool.and_eq_false_iff]
    by_cases hnone : f i = -1
    · exact Or.inl (by simp [hnone])
    · exact Or.inr (by simpa using h.mem_refs (mem_cells hi) hnone)

/-- A cell that is -1 gets what a copy returns. -/
theorem Owns.fill (h : Owns refs twice f g) (hi : i < maxNbPdpBaseInlets) (hempty : f i = -1)
    (r : Int) : Owns (if r = -1 then refs else r :: refs) twice (Function.update f i r) g where
  count_eq := by
    intro p hp
    have hcells := count_cells_update (f := f) (g := g) hi p r
    rw [hempty, if_neg (Ne.symm hp)] at hcells
    rw [count_received refs r hp, h.count_eq p hp]
    omega
  never_twice := h.never_twice

theorem Owns.fillNext (h : Owns refs twice f g) (hi : i < maxNbPdpBaseInlets) (hempty : g i = -1)
    (r : Int) : Owns (if r = -1 then refs else r :: refs) twice f (Function.update g i r) where
  count_eq := by
    intro p hp
    have hcells := count_cells_update_next (f := f) (g := g) hi p r
    rw [hempty, if_neg (Ne.symm hp)] at hcells
    rw [count_received refs r hp, h.count_eq p hp]
    omega
  never_twice := h.never_twice

/-- A packet moves from the second row to the first one, where the cell is -1. -/
theorem Owns.move (h : Owns refs twice f g) (hi : i < maxNbPdpBaseInlets) (hempty : f i = -1) :
    Owns refs twice (Function.update f i (g i)) (Function.update g i (-1)) where
  count_eq := by
    intro p hp
    have hfirst := count_cells_update (f := f) (g := g) hi p (g i)
    have hsecond :=
      count_cells_update_next (f := Function.update f i (g i)) (g := g) hi p (-1)
    rw [hempty, if_neg (Ne.symm hp)] at hfirst
    rw [if_neg (Ne.symm hp)] at hsecond
    rw [h.count_eq p hp]
    omega
  never_twice := h.never_twice

theorem Custody.replaceIfValid {s : BaseState} (h : Custody s) (hi : i < maxNbPdpBaseInlets) :
    Custody (s.replaceIfValid i) := by
  unfold BaseState.replaceIfValid
  split
  · exact h
  · have hmove := (Owns.release h hi).move hi (Function.update_self _ _ _)
    rw [Function.update_idem] at hmove
    exact hmove

/-- What a run of releases does: the references go one by one. -/
theorem releaseAll_owns (l : List Int) : ∀ s : BaseState,
    (∀ p, p ≠ -1 → s.refs.count p = l.count p) → s.releasedTwice = false →
      (∀ p, p ≠ -1 → (l.foldl markUnused s).refs.count p = 0) ∧
        (l.foldl markUnused s).releasedTwice = false := by
  induction l with
  | nil =>
      intro s hcount htwice
      exact ⟨hcount, htwice⟩
  | cons q l ih =>
      intro s hcount htwice
      rw [List.foldl_cons]
      apply ih
      · intro p hp
        have h := hcount p hp
        rw [List.count_cons] at h
        show (if q = -1 then s.refs else s.refs.erase q).count p = l.count p
        simp only [beq_iff_eq] at h
        split
        · next hq =>
            rw [if_neg (by rw [hq]; exact Ne.symm hp)] at h
            exact h
        · rw [List.count_erase]
          simp only [beq_iff_eq]
          omega
      · show (s.releasedTwice || (decide (q ≠ -1) && decide (q ∉ s.refs))) = false
        rw [htwice, Bool.false_or, Bool.and_eq_false_iff]
        by_cases hq : q = -1
        · exact Or.inl (by simp [hq])
        · refine Or.inr ?_
          have hpos : 0 < s.refs.count q := by
            rw [hcount q hq]
            exact List.count_pos_iff.mpr List.mem_cons_self
          simpa using List.count_pos_iff.mp hpos

theorem releaseAll_eq (l : List Int) : ∀ s : BaseState,
    l.foldl markUnused s = { s with
      refs := (l.foldl markUnused s).refs
      releasedTwice := (l.foldl markUnused s).releasedTwice } := by
  induction l with
  | nil =>
      intro s
      rfl
  | cons q l ih =>
      intro s
      rw [List.foldl_cons, ih (s.markUnused q)]
      rfl

end Custody

/-! ## Cold packets -/

/-- What `pdp_base_movepassive` leaves as it is. -/
structure MovesOnly (s s' : BaseState) : Prop where
  rest_eq : s' = { s with
    packet := s'.packet
    packetNext := s'.packetNext
    refs := s'.refs
    releasedTwice := s'.releasedTwice }
  hot_eq : s'.packet 0 = s.packet 0

theorem MovesOnly.refl (s : BaseState) : MovesOnly s s := ⟨rfl, rfl⟩

theorem MovesOnly.trans {s s₁ s' : BaseState} (h : MovesOnly s s₁) (h' : MovesOnly s₁ s') :
    MovesOnly s s' where
  rest_eq := by
    rw [h'.rest_eq, h.rest_eq]
  hot_eq := h'.hot_eq.trans h.hot_eq

theorem movesOnly_replaceIfValid (s : BaseState) {i : Nat} (hi : i ≠ 0) :
    MovesOnly s (s.replaceIfValid i) := by
  unfold replaceIfValid
  split
  · exact .refl s
  · refine ⟨rfl, ?_⟩
    exact Function.update_of_ne (Ne.symm hi) _ _

/-- `pdp_base_movepassive` keeps custody, and slot 0. -/
theorem movepassive_spec (c : BaseClass) {s : BaseState} (h : Custody s) :
    Custody (movepassive c s) ∧ MovesOnly s (movepassive c s) := by
  have hall : ∀ (l : List Nat), (∀ i ∈ l, i ≠ 0 ∧ i < maxNbPdpBaseInlets) → ∀ s : BaseState,
      Custody s → Custody (l.foldl replaceIfValid s) ∧ MovesOnly s (l.foldl replaceIfValid s) := by
    intro l
    induction l with
    | nil =>
        intro _ s h
        exact ⟨h, .refl s⟩
    | cons i l ih =>
        intro hl s h
        obtain ⟨hne, hlt⟩ := hl i List.mem_cons_self
        obtain ⟨hcustody, hmoves⟩ :=
          ih (fun j hj => hl j (List.mem_cons_of_mem _ hj)) _ (h.replaceIfValid hlt)
        exact ⟨hcustody, (movesOnly_replaceIfValid s hne).trans hmoves⟩
  apply hall _ _ s h
  intro i hi
  have hmem := List.mem_range'_1.mp hi
  have hle := c.inlets_le
  omega

end BaseState

end PureDataPacket
