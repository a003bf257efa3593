/-
# `PureDataPacket.Tree.Cells` — which lists and atoms are in use

`Grew` says which cells came into use, `Frees` which were given back.  A tree
that is given back leaves what was in use before it was made.
-/
import PureDataPacket.Tree.Grammar

namespace PureDataPacket

section Cells

variable {α : Type}

mutual

/-- The cells of the atoms of a tree, in the order in which they are made. -/
def Owned.atomIds : Owned α → List Nat
  | .pure a _ => [a]
  | .list a _ nodes => allAtomIds nodes ++ [a]

/-- The cells of the atoms of some trees. -/
def allAtomIds : List (Owned α) → List Nat
  | [] => []
  | o :: nodes => o.atomIds ++ allAtomIds nodes

end

mutual

/-- The cells of the list headers of a tree. -/
def Owned.listIds : Owned α → List Nat
  | .pure _ _ => []
  | .list _ l nodes => l :: allListIds nodes

/-- The cells of the list headers of some trees. -/
def allListIds : List (Owned α) → List Nat
  | [] => []
  | o :: nodes => o.listIds ++ allListIds nodes

end

mutual

def Owned.erase : Owned α → Node α
  | .pure _ v => .pure v
  | .list _ _ nodes => .list (eraseAll nodes)

def eraseAll : List (Owned α) → List (Node α)
  | [] => []
  | o :: nodes => o.erase :: eraseAll nodes

end

/-- The cells `A` and `L`, and no others, have come into use. -/
structure Grew (s s' : TreePool) (A L : List Nat) : Prop where
  atoms : ∀ i, s'.atoms.cells i = if i ∈ A then some () else s.atoms.cells i
  lists : ∀ i, s'.lists.cells i = if i ∈ L then some () else s.lists.cells i
  atoms_new : ∀ i ∈ A, s.atoms.cells i = none
  lists_new : ∀ i ∈ L, s.lists.cells i = none
  atoms_nodup : A.Nodup
  lists_nodup : L.Nodup

/-- The same cells are in use. -/
def SameCells (s s' : TreePool) : Prop :=
  s'.atoms.cells = s.atoms.cells ∧ s'.lists.cells = s.lists.cells

/-- The cells `A` and `L` are in use. -/
structure Live (s : TreePool) (A L : List Nat) : Prop where
  atoms : ∀ i ∈ A, s.atoms.cells i = some ()
  lists : ∀ i ∈ L, s.lists.cells i = some ()
  atoms_nodup : A.Nodup
  lists_nodup : L.Nodup

/-- The cells `A` and `L`, and no others, have been given back. -/
structure Frees (s s' : TreePool) (A L : List Nat) : Prop where
  atoms : ∀ i, s'.atoms.cells i = if i ∈ A then none else s.atoms.cells i
  lists : ∀ i, s'.lists.cells i = if i ∈ L then none else s.lists.cells i

variable {s s₁ s₂ : TreePool} {A A' L L' : List Nat}

theorem cells_trans {c c₁ c₂ : Nat → Option Unit} (h : ∀ i, c₁ i = if i ∈ A then some () else c i)
    (h' : ∀ i, c₂ i = if i ∈ A' then some () else c₁ i) (i : Nat) :
    c₂ i = if i ∈ A ++ A' then some () else c i := by
  rw [h' i, h i]
  by_cases hA : i ∈ A
  · by_cases hA' : i ∈ A'
    · rw [if_pos hA', if_pos (List.mem_append_left _ hA)]
    · rw [if_neg hA', if_pos hA, if_pos (List.mem_append_left _ hA)]
  · by_cases hA' : i ∈ A'
    · rw [if_pos hA', if_pos (List.mem_append_right _ hA')]
    · have hno : i ∉ A ++ A' := fun hm => (List.mem_append.mp hm).elim hA hA'
      rw [if_neg hA', if_neg hA, if_neg hno]

theorem cells_new {c c₁ : Nat → Option Unit} (h : ∀ i, c₁ i = if i ∈ A then some () else c i)
    (hnew : ∀ i ∈ A', c₁ i = none) {i : Nat} (hi : i ∈ A') : i ∉ A ∧ c i = none := by
  have hnone := hnew i hi
  rw [h i] at hnone
  by_cases hA : i ∈ A
  · rw [if_pos hA] at hnone
    cases hnone
  · rw [if_neg hA] at hnone
    exact ⟨hA, hnone⟩

theorem Grew.trans (h : Grew s s₁ A L) (h' : Grew s₁ s₂ A' L') :
    Grew s s₂ (A ++ A') (L ++ L') where
  atoms := cells_trans h.atoms h'.atoms
  lists := cells_trans h.lists h'.lists
  atoms_new i hi := (List.mem_append.mp hi).elim (h.atoms_new i)
    fun hi => (cells_new h.atoms h'.atoms_new hi).2
  lists_new i hi := (List.mem_append.mp hi).elim (h.lists_new i)
    fun hi => (cells_new h.lists h'.lists_new hi).2
  atoms_nodup := List.nodup_append.mpr ⟨h.atoms_nodup, h'.atoms_nodup, fun _ ha _ hb he =>
    (cells_new h.atoms h'.atoms_new hb).1 (he ▸ ha)⟩
  lists_nodup := List.nodup_append.mpr ⟨h.lists_nodup, h'.lists_nodup, fun _ ha _ hb he =>
    (cells_new h.lists h'.lists_new hb).1 (he ▸ ha)⟩

theorem cells_alloc_unit (a : Arena Unit) (i : Nat) :
    (a.alloc ()).cells i = if i ∈ [a.next] then some () else a.cells i := by
  rw [Arena.cells_alloc]
  by_cases hi : i = a.next
  · rw [hi, Function.update_self, if_pos List.mem_cons_self]
  · rw [Function.update_of_ne hi, if_neg fun hm => hi (List.mem_singleton.mp hm)]

theorem grew_listNew (s : TreePool) : Grew s s.listNew.2 [] [s.listNew.1] where
  atoms _ := (if_neg List.not_mem_nil).symm
  lists := cells_alloc_unit s.lists
  atoms_new _ h := absurd h List.not_mem_nil
  lists_new i h := by
    rw [List.mem_singleton.mp h]
    exact s.lists.next_unused
  atoms_nodup := List.nodup_nil
  lists_nodup := List.nodup_singleton _

theorem grew_atomNew (s : TreePool) : Grew s s.atomNew.2 [s.atomNew.1] [] where
  atoms := cells_alloc_unit s.atoms
  lists _ := (if_neg List.not_mem_nil).symm
  atoms_new i h := by
    rw [List.mem_singleton.mp h]
    exact s.atoms.next_unused
  lists_new _ h := absurd h List.not_mem_nil
  atoms_nodup := List.nodup_singleton _
  lists_nodup := List.nodup_nil

theorem Grew.live (h : Grew s s₁ A L) : Live s₁ A L where
  atoms i hi := (h.atoms i).trans (if_pos hi)
  lists i hi := (h.lists i).trans (if_pos hi)
  atoms_nodup := h.atoms_nodup
  lists_nodup := h.lists_nodup

theorem cells_back {c c₁ c₂ : Nat → Option Unit} (h : ∀ i, c₁ i = if i ∈ A then some () else c i)
    (hnew : ∀ i ∈ A, c i = none) (h' : ∀ i, c₂ i = if i ∈ A then none else c₁ i) : c₂ = c := by
  funext i
  rw [h' i]
  by_cases hi : i ∈ A
  · rw [if_pos hi, hnew i hi]
  · rw [if_neg hi, h i, if_neg hi]

theorem Grew.back (h : Grew s s₁ A L) (h' : Frees s₁ s₂ A L) : SameCells s s₂ :=
  ⟨cells_back h.atoms h.atoms_new h'.atoms, cells_back h.lists h.lists_new h'.lists⟩

theorem cells_frees {c c₁ c₂ : Nat → Option Unit} (h : ∀ i, c₁ i = if i ∈ A then none else c i)
    (h' : ∀ i, c₂ i = if i ∈ A' then none else c₁ i) (i : Nat) :
    c₂ i = if i ∈ A ++ A' then none else c i := by
  rw [h' i, h i]
  by_cases hA : i ∈ A
  · by_cases hA' : i ∈ A'
    · rw [if_pos hA', if_pos (List.mem_append_left _ hA)]
    · rw [if_neg hA', if_pos hA, if_pos (List.mem_append_left _ hA)]
  · by_cases hA' : i ∈ A'
    · rw [if_pos hA', if_pos (List.mem_append_right _ hA')]
    · have hno : i ∉ A ++ A' := fun hm => (List.mem_append.mp hm).elim hA hA'
      rw [if_neg hA', if_neg hA, if_neg hno]

theorem Frees.trans (h : Frees s s₁ A L) (h' : Frees s₁ s₂ A' L') :
    Frees s s₂ (A ++ A') (L ++ L') :=
  ⟨cells_frees h.atoms h'.atoms, cells_frees h.lists h'.lists⟩

theorem Live.left (h : Live s (A ++ A') (L ++ L')) : Live s A L where
  atoms i hi := h.atoms i (List.mem_append_left _ hi)
  lists i hi := h.lists i (List.mem_append_left _ hi)
  atoms_nodup := (List.nodup_append.mp h.atoms_nodup).1
  lists_nodup := (List.nodup_append.mp h.lists_nodup).1

theorem Live.right (h : Live s (A ++ A') (L ++ L')) (hf : Frees s s₁ A L) : Live s₁ A' L' where
  atoms i hi := by
    rw [hf.atoms i, if_neg fun hA => (List.nodup_append.mp h.atoms_nodup).2.2 i hA i hi rfl]
    exact h.atoms i (List.mem_append_right _ hi)
  lists i hi := by
    rw [hf.lists i, if_neg fun hL => (List.nodup_append.mp h.lists_nodup).2.2 i hL i hi rfl]
    exact h.lists i (List.mem_append_right _ hi)
  atoms_nodup := (List.nodup_append.mp h.atoms_nodup).2.1
  lists_nodup := (List.nodup_append.mp h.lists_nodup).2.1

theorem cells_dealloc_unit {a : Arena Unit} {i : Nat} (h : a.cells i = some ()) (j : Nat) :
    (a.dealloc i).cells j = if j ∈ [i] then none else a.cells j := by
  rw [a.cells_dealloc h]
  by_cases hj : j = i
  · rw [hj, Function.update_self, if_pos List.mem_cons_self]
  · rw [Function.update_of_ne hj, if_neg fun hm => hj (List.mem_singleton.mp hm)]

theorem atomDealloc_spec {a : Nat} (h : Live s [a] []) :
    ∃ s', s.atomDealloc a = .ok s' ∧ Frees s s' [a] [] := by
  have ha := h.atoms a List.mem_cons_self
  refine ⟨{ s with atoms := s.atoms.dealloc a }, ?_, cells_dealloc_unit ha,
    fun _ => (if_neg List.not_mem_nil).symm⟩
  unfold TreePool.atomDealloc
  simp only [ha]

theorem listDealloc_spec {l : Nat} (h : Live s [] [l]) :
    ∃ s', s.listDealloc l = .ok s' ∧ Frees s s' [] [l] := by
  have hl := h.lists l List.mem_cons_self
  refine ⟨{ s with lists := s.lists.dealloc l }, ?_, fun _ => (if_neg List.not_mem_nil).symm,
    cells_dealloc_unit hl⟩
  unfold TreePool.listDealloc
  simp only [hl]

theorem Live.swap {l : Nat} (h : Live s A (l :: L)) : Live s A (L ++ [l]) where
  atoms := h.atoms
  lists i hi := h.lists i ((List.perm_append_singleton l L).mem_iff.mp hi)
  atoms_nodup := h.atoms_nodup
  lists_nodup := (List.perm_append_singleton l L).nodup_iff.mpr h.lists_nodup

theorem Frees.swap {l : Nat} (h : Frees s s₁ A (L ++ [l])) : Frees s s₁ A (l :: L) where
  atoms := h.atoms
  lists i := by
    have hmem : i ∈ L ++ [l] ↔ i ∈ l :: L := (List.perm_append_singleton l L).mem_iff
    rw [h.lists i]
    simp only [hmem]

theorem frees_nil (s : TreePool) : Frees s s [] [] :=
  ⟨fun _ => (if_neg List.not_mem_nil).symm, fun _ => (if_neg List.not_mem_nil).symm⟩

mutual

theorem atomClear_spec : ∀ (o : Owned α) {s : TreePool}, Live s o.atomIds o.listIds →
    ∃ s', atomClear o s = .ok s' ∧ Frees s s' o.atomIds o.listIds
  | .pure a v, s, h => by
      rw [atomClear]
      exact atomDealloc_spec h
  | .list a l nodes, s, h => by
      rw [Owned.atomIds, Owned.listIds] at h ⊢
      have h' : Live s (allAtomIds nodes ++ ([] ++ [a])) (allListIds nodes ++ ([l] ++ [])) :=
        h.swap
      obtain ⟨s₁, hrun₁, hf₁⟩ := treeClear_spec nodes h'.left
      have h₁ := h'.right hf₁
      obtain ⟨s₂, hrun₂, hf₂⟩ := listDealloc_spec h₁.left
      obtain ⟨s₃, hrun₃, hf₃⟩ := atomDealloc_spec (h₁.right hf₂)
      refine ⟨s₃, ?_, Frees.swap (hf₁.trans (hf₂.trans hf₃))⟩
      rw [atomClear, hrun₁, tree_ok_bind, hrun₂, tree_ok_bind, hrun₃]

theorem treeClear_spec : ∀ (nodes : List (Owned α)) {s : TreePool},
    Live s (allAtomIds nodes) (allListIds nodes) →
    ∃ s', treeClear nodes s = .ok s' ∧ Frees s s' (allAtomIds nodes) (allListIds nodes)
  | [], s, _ => ⟨s, by rw [treeClear], frees_nil s⟩
  | o :: nodes, s, h => by
      rw [allAtomIds, allListIds] at h ⊢
      obtain ⟨s₁, hrun₁, hf₁⟩ := atomClear_spec o h.left
      obtain ⟨s₂, hrun₂, hf₂⟩ := treeClear_spec nodes (h.right hf₁)
      refine ⟨s₂, ?_, hf₁.trans hf₂⟩
      rw [treeClear, hrun₁, tree_ok_bind, hrun₂]

end

/-- `pdp_tree_free` gives back what the tree is made of. -/
theorem pdpTreeFree_spec {l : Nat} {nodes : List (Owned α)}
    (h : Live s (allAtomIds nodes) (l :: allListIds nodes)) :
    ∃ s', pdpTreeFree l nodes s = .ok s' ∧
      Frees s s' (allAtomIds nodes) (l :: allListIds nodes) := by
  have h' : Live s (allAtomIds nodes ++ []) (allListIds nodes ++ [l]) := by
    rw [List.append_nil]
    exact h.swap
  obtain ⟨s₁, hrun₁, hf₁⟩ := treeClear_spec nodes h'.left
  obtain ⟨s₂, hrun₂, hf₂⟩ := listDealloc_spec (h'.right hf₁)
  refine ⟨s₂, ?_, ?_⟩
  · rw [pdpTreeFree, hrun₁, tree_ok_bind, hrun₂]
  · have := hf₁.trans hf₂
    rw [List.append_nil] at this
    exact this.swap

end Cells

end PureDataPacket
