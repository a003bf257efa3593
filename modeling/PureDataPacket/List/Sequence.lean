/-
# `PureDataPacket.List.Sequence` — what the list operations mean

`Lists` has no pointers: a list is the sequence of its atoms, and an atom has a
type and a word.  `Rep` says that a heap is such a thing: the header of every
list has the length, the first and the last of its sequence, the atoms are
linked in this order, and no two lists share an atom.  `Means` is each operation
on sequences.
-/
import PureDataPacket.List.Heap
import Mathlib.Data.List.Lattice

namespace PureDataPacket

/-- The type and the word of an atom. -/
def Atom.value (a : Atom) : WordType × Word := (a.t, a.w)

/-- Sequences of atoms, and what is in the atoms. -/
@[ext] structure Lists where
  seq : Nat → Option (List Nat)
  val : Nat → Option (WordType × Word)

namespace Lists

def set (A : Lists) (l : Nat) (s : List Nat) : Lists :=
  { A with seq := Function.update A.seq l (some s) }

@[simp] theorem seq_set_self (A : Lists) (l : Nat) (s : List Nat) : (A.set l s).seq l = some s :=
  Function.update_self ..

theorem seq_set_of_ne (A : Lists) {l l' : Nat} (h : l' ≠ l) (s : List Nat) :
    (A.set l s).seq l' = A.seq l' := Function.update_of_ne h ..

def put (A : Lists) (i : Nat) (v : WordType × Word) : Lists :=
  { A with val := Function.update A.val i (some v) }

def drop (A : Lists) (s : List Nat) : Lists :=
  { A with val := fun i => if i ∈ s then none else A.val i }

/-- An atom that is in use, but in no list. -/
def Detached (A : Lists) (a : Nat) : Prop :=
  A.val a ≠ none ∧ ∀ l s, A.seq l = some s → a ∉ s

end Lists

/-- `B` has the values of `A`, and new atoms `s` with the values `vs`. -/
structure NewAtoms (A B : Lists) (s : List Nat) (vs : List (WordType × Word)) : Prop where
  nodup : s.Nodup
  values : s.map B.val = vs.map some
  unused : ∀ i ∈ s, A.val i = none
  others : ∀ i, i ∉ s → B.val i = A.val i

/-- `B` has all that is in `A`, and a new list with new atoms. -/
def Lists.Adds (A : Lists) (l : Nat) (vs : List (WordType × Word)) (B : Lists) : Prop :=
  A.seq l = none ∧ ∃ s, B.seq = Function.update A.seq l (some s) ∧ NewAtoms A B s vs

/-- The header of a list with a sequence. -/
def headerOf (s : List Nat) : Header := ⟨s.length, s.head?, s.getLast?⟩

/-- The atoms of a sequence are linked in its order. -/
def Linked (cells : Nat → Option Atom) : List Nat → Prop
  | [] => True
  | i :: s => (∃ a, cells i = some a ∧ a.next = s.head?) ∧ Linked cells s

/-- What a heap stands for. -/
structure Rep (h : Heap) (A : Lists) : Prop where
  headers : ∀ l, h.lists.cells l = (A.seq l).map headerOf
  values : ∀ i, A.val i = (h.atoms.cells i).map Atom.value
  linked : ∀ l s, A.seq l = some s → Linked h.atoms.cells s
  nodup : ∀ l s, A.seq l = some s → s.Nodup
  small : ∀ l s, A.seq l = some s → IsInt s.length
  disjoint : ∀ l l' s s', l ≠ l' → A.seq l = some s → A.seq l' = some s' → s.Disjoint s'

theorem rep_empty : Rep .empty ⟨fun _ => none, fun _ => none⟩ where
  headers := fun _ => rfl
  values := fun _ => rfl
  linked := fun _ _ h => by cases h
  nodup := fun _ _ h => by cases h
  small := fun _ _ h => by cases h
  disjoint := fun _ _ _ _ _ h => by cases h

/-! ## Sequences of linked atoms -/

section Linked

variable {cells cells' : Nat → Option Atom} {s s' : List Nat}

theorem linked_congr (hc : ∀ i ∈ s, cells' i = cells i) (h : Linked cells s) :
    Linked cells' s := by
  induction s with
  | nil => trivial
  | cons i s ih =>
      obtain ⟨⟨a, ha, hn⟩, hs⟩ := h
      exact ⟨⟨a, (hc i List.mem_cons_self).trans ha, hn⟩,
        ih (fun j hj => hc j (List.mem_cons_of_mem _ hj)) hs⟩

theorem linked_live (h : Linked cells s) {i : Nat} (hi : i ∈ s) : ∃ a, cells i = some a := by
  induction s with
  | nil => cases hi
  | cons j s ih =>
      obtain ⟨⟨a, ha, _⟩, hs⟩ := h
      rcases List.mem_cons.mp hi with rfl | hi
      · exact ⟨a, ha⟩
      · exact ih hs hi

theorem linked_suffix (h : Linked cells (s ++ s')) : Linked cells s' := by
  induction s with
  | nil => exact h
  | cons i s ih => exact ih h.2

/-- Two sequences are linked one after the other when the last atom of the first
gets the first atom of the second as its next one. -/
theorem linked_append {last : Nat} {r : List Nat} {a : Atom} (hnd : (s ++ [last]).Nodup)
    (h : Linked cells (s ++ last :: r)) (hs' : Linked cells s') (hlast : last ∉ s') :
    Linked (Function.update cells last (some { a with next := s'.head? })) (s ++ last :: s') := by
  induction s with
  | nil =>
      refine ⟨⟨_, Function.update_self .., rfl⟩, linked_congr (fun i hi => ?_) hs'⟩
      exact Function.update_of_ne (fun he : i = last => hlast (he ▸ hi)) ..
  | cons i s ih =>
      obtain ⟨⟨b, hb, hn⟩, hs⟩ := h
      obtain ⟨hi, hnd⟩ := List.nodup_cons.mp hnd
      have hne : i ≠ last := by
        rintro rfl
        exact hi (List.mem_append_right _ List.mem_cons_self)
      refine ⟨⟨b, (Function.update_of_ne hne ..).trans hb, ?_⟩, ih hnd hs⟩
      rw [hn]
      cases s with
      | nil => rfl
      | cons j s => rfl

end Linked

/-! ## Reading a heap that stands for lists -/

section Rep

variable {h : Heap} {A : Lists} {l : Nat} {s : List Nat}

theorem Rep.header (hR : Rep h A) (hl : A.seq l = some s) : h.header l = .ok (headerOf s) := by
  unfold Heap.header
  rw [hR.headers l, hl]
  rfl

theorem Rep.lists_cell (hR : Rep h A) (hl : A.seq l = some s) :
    h.lists.cells l = some (headerOf s) := by
  rw [hR.headers l, hl]
  rfl

theorem atom_eq {i : Nat} {a : Atom} (ha : h.atoms.cells i = some a) :
    h.atom (some i) = .ok (i, a) := by
  unfold Heap.atom
  simp only [ha]

theorem Rep.live (hR : Rep h A) (hl : A.seq l = some s) {i : Nat} (hi : i ∈ s) :
    ∃ a, h.atoms.cells i = some a := linked_live (hR.linked l s hl) hi

theorem Rep.length_lt (hR : Rep h A) (hl : A.seq l = some s) : s.length < h.loopBound := by
  refine Nat.lt_succ_of_le (h.atoms.length_le_bound (hR.nodup l s hl) fun i hi => ?_)
  obtain ⟨a, ha⟩ := hR.live hl hi
  rw [ha]
  rfl

theorem Rep.cell_of_val (hR : Rep h A) {i : Nat} (hi : A.val i ≠ none) :
    ∃ a, h.atoms.cells i = some a ∧ A.val i = some a.value := by
  have hv := hR.values i
  cases hc : h.atoms.cells i with
  | none =>
      rw [hc] at hv
      exact absurd hv hi
  | some a =>
      rw [hc] at hv
      exact ⟨a, rfl, hv⟩

/-- One list changes, and its atoms; everything else stays as it is. -/
theorem Rep.change (hR : Rep h A) {h' : Heap}
    (hlists : h'.lists.cells = Function.update h.lists.cells l (some (headerOf s)))
    (hlinked : Linked h'.atoms.cells s) (hnd : s.Nodup) (hsmall : IsInt s.length)
    (hframe : ∀ l' s', l' ≠ l → A.seq l' = some s' → ∀ i ∈ s', i ∉ s ∧
      h'.atoms.cells i = h.atoms.cells i) :
    Rep h' ⟨Function.update A.seq l (some s), fun i => (h'.atoms.cells i).map Atom.value⟩ := by
  have hcases : ∀ {l' s'}, Function.update A.seq l (some s) l' = some s' →
      (l' = l ∧ s' = s) ∨ (l' ≠ l ∧ A.seq l' = some s') := by
    intro l' s' h'
    by_cases hl : l' = l
    · subst hl
      rw [Function.update_self] at h'
      cases h'
      exact Or.inl ⟨rfl, rfl⟩
    · rw [Function.update_of_ne hl] at h'
      exact Or.inr ⟨hl, h'⟩
  refine ⟨fun l' => ?_, fun _ => rfl, fun l' s' h' => ?_, fun l' s' h' => ?_, fun l' s' h' => ?_,
    fun l₁ l₂ s₁ s₂ hne h₁ h₂ => ?_⟩
  · rw [hlists]
    by_cases hl : l' = l
    · subst hl
      simp only [Function.update_self, Option.map_some]
    · simp only [Function.update_of_ne hl]
      exact hR.headers l'
  · rcases hcases h' with ⟨rfl, rfl⟩ | ⟨hne, h'⟩
    · exact hlinked
    · exact linked_congr (fun i hi => (hframe l' s' hne h' i hi).2) (hR.linked l' s' h')
  · rcases hcases h' with ⟨rfl, rfl⟩ | ⟨hne, h'⟩
    · exact hnd
    · exact hR.nodup l' s' h'
  · rcases hcases h' with ⟨rfl, rfl⟩ | ⟨hne, h'⟩
    · exact hsmall
    · exact hR.small l' s' h'
  · rcases hcases h₁ with ⟨hl₁, hs₁⟩ | ⟨hne₁, hs₁⟩
    · rcases hcases h₂ with ⟨hl₂, _⟩ | ⟨hne₂, hs₂⟩
      · exact absurd (hl₁.trans hl₂.symm) hne
      · exact fun i hi hi' => (hframe l₂ s₂ hne₂ hs₂ i hi').1 (hs₁ ▸ hi)
    · rcases hcases h₂ with ⟨_, hs₂⟩ | ⟨_, hs₂⟩
      · exact fun i hi hi' => (hframe l₁ s₁ hne₁ hs₁ i hi).1 (hs₂ ▸ hi')
      · exact hR.disjoint l₁ l₂ s₁ s₂ hne hs₁ hs₂

/-- The same, with the values that the atoms have afterwards. -/
theorem Rep.change_to (hR : Rep h A) {h' : Heap} {B : Lists}
    (hlists : h'.lists.cells = Function.update h.lists.cells l (some (headerOf s)))
    (hlinked : Linked h'.atoms.cells s) (hnd : s.Nodup) (hsmall : IsInt s.length)
    (hframe : ∀ l' s', l' ≠ l → A.seq l' = some s' → ∀ i ∈ s', i ∉ s ∧
      h'.atoms.cells i = h.atoms.cells i)
    (hseq : B.seq = Function.update A.seq l (some s))
    (hval : ∀ i, B.val i = (h'.atoms.cells i).map Atom.value) : Rep h' B := by
  have hB : B = ⟨Function.update A.seq l (some s), fun i => (h'.atoms.cells i).map Atom.value⟩ :=
    Lists.ext hseq (funext hval)
  rw [hB]
  exact hR.change hlists hlinked hnd hsmall hframe

theorem value_update {cells : Nat → Option Atom} {i : Nat} {a : Atom} (ha : cells i = some a)
    (p : Option Nat) (j : Nat) :
    (Function.update cells i (some { a with next := p }) j).map Atom.value =
      (cells j).map Atom.value := by
  by_cases hj : j = i
  · subst hj
    rw [Function.update_self, ha]
    rfl
  · rw [Function.update_of_ne hj]

end Rep

end PureDataPacket
