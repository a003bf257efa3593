/-
# `PureDataPacket.List.Operations` — every list operation does what it means

One lemma for each operation: in a heap that stands for lists, it ends, and the
heap it leaves stands for the lists with the sequence that the operation means.
What is needed is that `elements` does not leave the range of an `int`.

| | |
| :-- | :-- |
| `Rep.cells` | the lists do not notice what happens to other atoms |
| `Rep.detached_head` | what is popped is in no list any more |
| `add_overflow` | there are only so many `int`s |
-/
import PureDataPacket.List.Sequence

namespace PureDataPacket

/-! ## Allocation -/

section Cells

variable {h : Heap} {A : Lists} {l : Nat} {s : List Nat}

theorem Rep.apart (hR : Rep h A) (hl : A.seq l = some s) {l' : Nat} {s' : List Nat} (hne : l' ≠ l)
    (hl' : A.seq l' = some s') {i : Nat} (hi : i ∈ s') : i ∉ s :=
  fun hi' => hR.disjoint l' l s' s hne hl' hl hi hi'

-- in parentheses, so that `simp` does not take these two for definitional unfoldings
theorem ok_bind {α β : Type} (a : α) (f : α → Except ListFault β) :
    (Except.ok a >>= f) = f a := (rfl)

theorem error_bind {α β : Type} (e : ListFault) (f : α → Except ListFault β) :
    (Except.error e >>= f) = .error e := (rfl)

theorem intAdd_ok {a b : Int} (h : IsInt (a + b)) : intAdd a b = .ok (a + b) := if_pos h

/-- Atoms in no list may be written to, given back, or come into being: the
lists do not notice. -/
theorem Rep.cells (hR : Rep h A) {h' : Heap} {B : Lists} (hlists : h'.lists.cells = h.lists.cells)
    (hseq : B.seq = A.seq) (hcells : ∀ l s, A.seq l = some s → ∀ i ∈ s,
      h'.atoms.cells i = h.atoms.cells i)
    (hval : ∀ i, B.val i = (h'.atoms.cells i).map Atom.value) : Rep h' B where
  headers := by
    rw [hlists, hseq]
    exact hR.headers
  values := hval
  linked l s hl := by
    rw [hseq] at hl
    exact linked_congr (hcells l s hl) (hR.linked l s hl)
  nodup := by
    rw [hseq]
    exact hR.nodup
  small := by
    rw [hseq]
    exact hR.small
  disjoint := by
    rw [hseq]
    exact hR.disjoint

theorem Rep.next_unused (hR : Rep h A) : A.val h.atoms.next = none := by
  rw [hR.values, h.atoms.next_unused]
  rfl

theorem Rep.val_ne_none (hR : Rep h A) (hl : A.seq l = some s) {i : Nat} (hi : i ∈ s) :
    A.val i ≠ none := by
  obtain ⟨a, ha⟩ := hR.live hl hi
  rw [hR.values, ha]
  exact Option.some_ne_none _

theorem Rep.alloc_atom (hR : Rep h A) (p : Option Nat) (w : Word) (t : WordType) :
    Rep { h with atoms := h.atoms.alloc ⟨p, w, t⟩ } (A.put h.atoms.next (t, w)) := by
  refine hR.cells rfl rfl (fun l s hl i hi => ?_) (fun i => ?_)
  · obtain ⟨a, ha⟩ := hR.live hl hi
    exact Function.update_of_ne (h.atoms.ne_next ha) ..
  · show Function.update A.val _ _ i = Option.map _ (Function.update h.atoms.cells _ _ i)
    by_cases hi : i = h.atoms.next
    · rw [hi, Function.update_self, Function.update_self]
      rfl
    · rw [Function.update_of_ne hi, Function.update_of_ne hi]
      exact hR.values i

theorem Rep.detached_next (hR : Rep h A) (v : WordType × Word) :
    (A.put h.atoms.next v).Detached h.atoms.next := by
  refine ⟨?_, fun l s hl hi => hR.val_ne_none hl hi hR.next_unused⟩
  show Function.update A.val _ _ _ ≠ none
  rw [Function.update_self]
  exact Option.some_ne_none _

theorem Rep.relink (hR : Rep h A) {a : Nat} (ha : A.Detached a) {x : Atom}
    (hx : h.atoms.cells a = some x) (p : Option Nat) : Rep (h.setAtom a { x with next := p }) A := by
  have hcells := h.atoms.cells_write (a := { x with next := p }) hx
  refine hR.cells rfl rfl (fun l s hl i hi => ?_) (fun i => ?_)
  · show (h.atoms.write a _).cells i = _
    rw [hcells]
    exact Function.update_of_ne (fun he : i = a => ha.2 l s hl (he ▸ hi)) ..
  · show _ = ((h.atoms.write a _).cells i).map _
    rw [hcells, value_update hx]
    exact hR.values i

theorem Rep.dealloc_atom (hR : Rep h A) {a : Nat} (ha : A.Detached a) :
    Rep (h.deallocAtom a) (A.drop [a]) := by
  obtain ⟨x, hx, _⟩ := hR.cell_of_val ha.1
  have hcells := h.atoms.cells_dealloc hx
  refine hR.cells rfl rfl (fun l s hl i hi => ?_) (fun i => ?_)
  · show (h.atoms.dealloc a).cells i = _
    rw [hcells]
    exact Function.update_of_ne (fun he : i = a => ha.2 l s hl (he ▸ hi)) ..
  · show (if i ∈ [a] then none else A.val i) = ((h.atoms.dealloc a).cells i).map _
    rw [hcells]
    by_cases hi : i = a
    · rw [if_pos (List.mem_singleton.mpr hi), hi, Function.update_self]
      rfl
    · rw [if_neg (fun hm => hi (List.mem_singleton.mp hm)), Function.update_of_ne hi]
      exact hR.values i

theorem Rep.next_list (hR : Rep h A) : A.seq h.lists.next = none := by
  have hh := hR.headers h.lists.next
  rw [h.lists.next_unused] at hh
  cases hs : A.seq h.lists.next with
  | none => rfl
  | some s =>
      rw [hs] at hh
      cases hh

/-- A list header is given back; its atoms are then in no list. -/
theorem Rep.dealloc_list (hR : Rep h A) (hl : A.seq l = some s) :
    Rep (h.deallocList l) { A with seq := Function.update A.seq l none } := by
  have hcells := h.lists.cells_dealloc (hR.lists_cell hl)
  have hold : ∀ {l' s'}, Function.update A.seq l none l' = some s' → A.seq l' = some s' := by
    intro l' s' h'
    by_cases he : l' = l
    · rw [he, Function.update_self] at h'
      cases h'
    · rwa [Function.update_of_ne he] at h'
  refine ⟨fun l' => ?_, hR.values, fun l' s' h' => hR.linked l' s' (hold h'),
    fun l' s' h' => hR.nodup l' s' (hold h'), fun l' s' h' => hR.small l' s' (hold h'),
    fun l₁ l₂ s₁ s₂ hne h₁ h₂ => hR.disjoint l₁ l₂ s₁ s₂ hne (hold h₁) (hold h₂)⟩
  show (h.lists.dealloc l).cells l' = (Function.update A.seq l none l').map headerOf
  rw [hcells]
  by_cases he : l' = l
  · rw [he, Function.update_self, Function.update_self]
    rfl
  · rw [Function.update_of_ne he, Function.update_of_ne he]
    exact hR.headers l'

end Cells

/-! ## `pdp_list_add_atom` and `pdp_list_add` -/

theorem headerOf_cons (a : Nat) (s : List Nat) : headerOf (a :: s) =
    ⟨s.length + 1, some a, if s.getLast? = none then some a else s.getLast?⟩ := by
  cases s with
  | nil => rfl
  | cons b s =>
      have hlast : (a :: b :: s).getLast? = (b :: s).getLast? := List.getLast?_cons_cons
      have hsome : (b :: s).getLast? ≠ none := by simp
      rw [if_neg hsome, ← hlast]
      rfl

section Front

variable {h : Heap} {A : Lists} {l : Nat} {s : List Nat}

theorem addAtom_spec (hR : Rep h A) (hl : A.seq l = some s) {a : Nat} (ha : A.Detached a)
    (hint : IsInt (s.length + 1)) :
    ∃ h', pdpListAddAtom h l a = .ok h' ∧ Rep h' (A.set l (a :: s)) ∧
      ∀ i, i ≠ a → h'.atoms.cells i = h.atoms.cells i := by
  obtain ⟨x, hx, _⟩ := hR.cell_of_val ha.1
  have hcells := h.atoms.cells_write (a := { x with next := s.head? }) hx
  have hframe : ∀ i, i ≠ a → (h.setAtom a { x with next := s.head? }).atoms.cells i =
      h.atoms.cells i := fun i hi => (congrFun hcells i).trans (Function.update_of_ne hi ..)
  refine ⟨(h.setAtom a { x with next := s.head? }).setHeader l (headerOf (a :: s)), ?_, ?_, hframe⟩
  · have hadd : intAdd (headerOf s).elements 1 = .ok (s.length + 1) := intAdd_ok hint
    simp only [pdpListAddAtom, hR.header hl, atom_eq hx, hadd, ok_bind, headerOf_cons]
    rfl
  · refine hR.change_to (l := l) (s := a :: s) ?_ ?_ ?_ ?_ ?_ rfl ?_
    · show (h.lists.write l _).cells = _
      exact h.lists.cells_write (hR.lists_cell hl)
    · show Linked (h.atoms.write a _).cells _
      rw [hcells]
      refine ⟨⟨_, Function.update_self .., rfl⟩, linked_congr (fun i hi => ?_) (hR.linked l s hl)⟩
      exact Function.update_of_ne (fun he : i = a => ha.2 l s hl (he ▸ hi)) ..
    · exact List.nodup_cons.mpr ⟨ha.2 l s hl, hR.nodup l s hl⟩
    · rwa [List.length_cons, Int.natCast_succ]
    · intro l' s' hne hl' i hi
      have hia : i ≠ a := fun he => ha.2 l' s' hl' (he ▸ hi)
      exact ⟨List.not_mem_cons_of_ne_of_not_mem hia (hR.apart hl hne hl' hi), hframe i hia⟩
    · intro i
      show A.val i = ((h.atoms.write a _).cells i).map _
      rw [hcells]
      exact (hR.values i).trans (value_update hx _ i).symm

theorem add_spec (hR : Rep h A) (hl : A.seq l = some s) (hint : IsInt (s.length + 1))
    (t : WordType) (w : Word) :
    ∃ h', pdpListAdd h l t w = .ok h' ∧
      Rep h' ((A.put h.atoms.next (t, w)).set l (h.atoms.next :: s)) :=
  (addAtom_spec (hR.alloc_atom none w t) hl (hR.detached_next (t, w)) hint).imp
    fun _ h' => ⟨h'.1, h'.2.1⟩

theorem add_overflow (hR : Rep h A) (hl : A.seq l = some s) (hint : ¬ IsInt (s.length + 1))
    (t : WordType) (w : Word) : pdpListAdd h l t w = .error .overflow := by
  have hR' := hR.alloc_atom none w t
  have hcell : ({ h with atoms := h.atoms.alloc ⟨none, w, t⟩ } : Heap).atoms.cells h.atoms.next =
      some ⟨none, w, t⟩ := Function.update_self ..
  have hadd : intAdd (headerOf s).elements 1 = .error .overflow := by
    unfold intAdd headerOf
    rw [if_neg hint]
  simp only [pdpListAdd, pdpListAddAtom, hR'.header hl, atom_eq hcell, hadd, ok_bind, error_bind]

end Front

/-! ## `pdp_list_add_back_atom` and `pdp_list_add_back` -/

section Back

variable {h : Heap} {A : Lists} {l : Nat} {s : List Nat}

theorem headerOf_append (s : List Nat) (a : Nat) :
    headerOf (s ++ [a]) = ⟨s.length + 1, if s = [] then some a else s.head?, some a⟩ := by
  cases s with
  | nil => rfl
  | cons b s =>
      have hlast : (b :: s ++ [a]).getLast? = some a := List.getLast?_concat
      unfold headerOf
      rw [hlast, if_neg (List.cons_ne_nil b s), List.length_append, List.length_singleton,
        Int.natCast_succ]
      rfl

theorem not_mem_append {i a : Nat} (hi : i ∉ s) (hia : i ≠ a) : i ∉ s ++ [a] := by
  rw [List.mem_append, List.mem_singleton]
  exact not_or.mpr ⟨hi, hia⟩

theorem nodup_append {a : Nat} (hnd : s.Nodup) (ha : a ∉ s) : (s ++ [a]).Nodup := by
  rw [List.nodup_append]
  refine ⟨hnd, List.nodup_singleton a, fun i hi j hj he => ha ?_⟩
  rwa [← List.mem_singleton.mp hj, ← he]

theorem addBackAtom_spec (hR : Rep h A) (hl : A.seq l = some s) {a : Nat} (ha : A.Detached a)
    (hint : IsInt (s.length + 1)) :
    ∃ h', pdpListAddBackAtom h l a = .ok h' ∧ Rep h' (A.set l (s ++ [a])) := by
  obtain ⟨x, hx, _⟩ := hR.cell_of_val ha.1
  have hadd : intAdd (headerOf s).elements 1 = .ok (s.length + 1) := intAdd_ok hint
  have hlen : IsInt (s ++ [a]).length := by
    rwa [List.length_append, List.length_singleton, Int.natCast_succ]
  have hnd : (s ++ [a]).Nodup := nodup_append (hR.nodup l s hl) (ha.2 l s hl)
  have hR' := hR.relink ha hx none
  have hcell : (h.setAtom a { x with next := none }).atoms.cells a =
      some { x with next := none } := by
    show (h.atoms.write a _).cells a = _
    rw [h.atoms.cells_write hx, Function.update_self]
  rcases List.eq_nil_or_concat s with rfl | ⟨s, last, rfl⟩
  · refine ⟨(h.setAtom a { x with next := none }).setHeader l (headerOf [a]), ?_, ?_⟩
    · simp only [pdpListAddBackAtom, hR.header hl, atom_eq hx, hadd, ok_bind]
      rfl
    · refine hR'.change_to (l := l) (s := [a]) ?_ ⟨⟨_, hcell, rfl⟩, trivial⟩ hnd hlen ?_ rfl
        hR'.values
      · exact (h.setAtom a _).lists.cells_write (hR'.lists_cell hl)
      · intro l' s' hne hl' i hi
        exact ⟨fun hm => ha.2 l' s' hl' (List.mem_singleton.mp hm ▸ hi), rfl⟩
  · rw [List.concat_eq_append] at hl hadd hlen hnd ⊢
    have hmem : last ∈ s ++ [last] := List.mem_append_right _ List.mem_cons_self
    obtain ⟨y, hy⟩ := hR'.live hl hmem
    have hlast : (headerOf (s ++ [last])).last = some last := List.getLast?_concat
    refine ⟨((h.setAtom a { x with next := none }).setAtom last { y with next := some a }).setHeader
      l (headerOf (s ++ [last] ++ [a])), ?_, ?_⟩
    · have hne : s ++ [last] ≠ [] := List.append_ne_nil_of_right_ne_nil s (List.cons_ne_nil _ _)
      simp only [pdpListAddBackAtom, hR.header hl, atom_eq hx, hadd, ok_bind, hlast, atom_eq hy,
        headerOf_append (s ++ [last]), if_neg hne]
      rfl
    · have hcells := (h.setAtom a { x with next := none }).atoms.cells_write
        (a := { y with next := some a }) hy
      refine hR'.change_to (l := l) (s := s ++ [last] ++ [a]) ?_ ?_ hnd hlen ?_ rfl ?_
      · exact (h.setAtom a _).lists.cells_write (hR'.lists_cell hl)
      · show Linked ((h.setAtom a _).atoms.write last _).cells _
        rw [hcells, List.append_assoc]
        refine linked_append (hR.nodup l _ hl) (hR'.linked l _ hl)
          (show Linked _ [a] from ⟨⟨_, hcell, rfl⟩, trivial⟩) ?_
        intro hm
        exact ha.2 l _ hl (List.mem_singleton.mp hm ▸ hmem)
      · intro l' s' hne hl' i hi
        have hi' := hR'.apart hl hne hl' hi
        refine ⟨not_mem_append hi' fun he => ha.2 l' s' hl' (he ▸ hi), ?_⟩
        show ((h.setAtom a _).atoms.write last _).cells i = _
        rw [hcells]
        exact Function.update_of_ne (fun he : i = last => hi' (he ▸ hmem)) ..
      · intro i
        show A.val i = (((h.setAtom a _).atoms.write last _).cells i).map _
        rw [hcells]
        exact (hR'.values i).trans (value_update hy _ i).symm

theorem addBack_spec (hR : Rep h A) (hl : A.seq l = some s) (hint : IsInt (s.length + 1))
    (t : WordType) (w : Word) :
    ∃ h', pdpListAddBack h l t w = .ok h' ∧
      Rep h' ((A.put h.atoms.next (t, w)).set l (s ++ [h.atoms.next])) :=
  addBackAtom_spec (hR.alloc_atom none w t) hl (hR.detached_next (t, w)) hint

end Back

/-! ## `pdp_list_pop_atom` and `pdp_list_pop` -/

section Pop

variable {h : Heap} {A : Lists} {l : Nat} {s : List Nat}

theorem isInt_pred {n : Nat} (h : IsInt ((n + 1 : Nat) : Int)) :
    ((n + 1 : Nat) : Int) + -1 = n ∧ IsInt (n : Int) := by
  unfold IsInt at *
  omega

theorem popAtom_cons {a : Nat} {x : Atom} (hx : h.atoms.cells a = some x) (hn : x.next = s.head?)
    (hint : IsInt (a :: s).length) :
    popAtom h (headerOf (a :: s)) =
      .ok (some a, headerOf s, h.setAtom a { x with next := none }) := by
  obtain ⟨hpred, hint'⟩ := isInt_pred hint
  have hadd : intAdd (headerOf (a :: s)).elements (-1) = .ok s.length := by
    have := intAdd_ok (a := ((a :: s).length : Int)) (b := -1) (by rwa [List.length_cons, hpred])
    rwa [List.length_cons, hpred] at this
  have hfirst : (headerOf (a :: s)).first = some a := rfl
  simp only [popAtom, hfirst, atom_eq hx, ok_bind, hadd, hn]
  cases s with
  | nil => rfl
  | cons b s =>
      rw [if_neg (by exact Option.some_ne_none b)]
      have hlast : (headerOf (a :: b :: s)).last = (b :: s).getLast? := List.getLast?_cons_cons
      rw [hlast]
      rfl

theorem popAtom_nil : popAtom h (headerOf []) = .ok (none, headerOf [], h) := rfl

theorem Rep.detached_head (hR : Rep h A) {a : Nat} (hl : A.seq l = some (a :: s)) :
    (A.set l s).Detached a := by
  refine ⟨hR.val_ne_none hl List.mem_cons_self, fun l' s' hl' hm => ?_⟩
  by_cases hne : l' = l
  · subst hne
    have hs : s = s' := Option.some.inj ((A.seq_set_self l' s).symm.trans hl')
    exact (List.nodup_cons.mp (hR.nodup _ _ hl)).1 (hs ▸ hm)
  · have hl'' : A.seq l' = some s' := (A.seq_set_of_ne hne s).symm.trans hl'
    exact hR.apart hl hne hl'' hm List.mem_cons_self

theorem Rep.set_self (hl : A.seq l = some s) : A.set l s = A := by
  unfold Lists.set
  rw [← hl, Function.update_eq_self]

theorem popAtom_spec (hR : Rep h A) (hl : A.seq l = some s) :
    ∃ h', pdpListPopAtom h l = .ok (s.head?, h') ∧ Rep h' (A.set l s.tail) := by
  cases s with
  | nil =>
      refine ⟨h.setHeader l (headerOf []), ?_, ?_⟩
      · simp only [pdpListPopAtom, hR.header hl, ok_bind, popAtom_nil]
        rfl
      · refine hR.change_to (l := l) (s := []) ?_ trivial List.nodup_nil (hR.small l _ hl) ?_ rfl
          hR.values
        · exact h.lists.cells_write (hR.lists_cell hl)
        · exact fun l' s' _ _ i _ => ⟨List.not_mem_nil, rfl⟩
  | cons a s =>
      obtain ⟨⟨x, hx, hn⟩, hs⟩ := hR.linked l _ hl
      have hint := hR.small l _ hl
      have hnd := List.nodup_cons.mp (hR.nodup l _ hl)
      have hcells := h.atoms.cells_write (a := { x with next := none }) hx
      refine ⟨(h.setAtom a { x with next := none }).setHeader l (headerOf s), ?_, ?_⟩
      · simp only [pdpListPopAtom, hR.header hl, ok_bind, popAtom_cons hx hn hint]
        rfl
      · refine hR.change_to (l := l) (s := s) ?_ ?_ hnd.2 (isInt_pred hint).2 ?_ rfl ?_
        · exact h.lists.cells_write (hR.lists_cell hl)
        · show Linked (h.atoms.write a _).cells _
          rw [hcells]
          refine linked_congr (fun i hi => ?_) hs
          exact Function.update_of_ne (fun he : i = a => hnd.1 (he ▸ hi)) ..
        · intro l' s' hne hl' i hi
          have hi' := hR.apart hl hne hl' hi
          refine ⟨fun hm => hi' (List.mem_cons_of_mem _ hm), ?_⟩
          show (h.atoms.write a _).cells i = _
          rw [hcells]
          exact Function.update_of_ne (fun he : i = a => hi' (he ▸ List.mem_cons_self)) ..
        · intro i
          show A.val i = ((h.atoms.write a _).cells i).map _
          rw [hcells]
          exact (hR.values i).trans (value_update hx _ i).symm

theorem pop_spec (hR : Rep h A) {a : Nat} (hl : A.seq l = some (a :: s)) :
    ∃ t w h', A.val a = some (t, w) ∧ pdpListPop h l = .ok (w, h') ∧
      Rep h' ((A.set l s).drop [a]) := by
  obtain ⟨h₁, hpop, hR₁⟩ := popAtom_spec hR hl
  have hdet := hR.detached_head hl
  obtain ⟨x, hx, hv⟩ := hR₁.cell_of_val hdet.1
  refine ⟨x.t, x.w, h₁.deallocAtom a, hv, ?_, hR₁.dealloc_atom hdet⟩
  simp only [pdpListPop, hpop, ok_bind, List.head?_cons, atom_eq hx]

theorem pop_empty (hR : Rep h A) (hl : A.seq l = some []) :
    pdpListPop h l = .error .badPointer := by
  obtain ⟨h₁, hpop, _⟩ := popAtom_spec hR hl
  simp only [pdpListPop, hpop, ok_bind, List.head?_nil, Heap.atom, error_bind]

end Pop

end PureDataPacket
