/-
# `PureDataPacket.List.Moving` — from the front of one list to the front of another

`pdp_list_pop_push` changes the two headers itself.  The first pointers, the
counts and the links come out right; the two tests that decide whether `last`
changes are the wrong way round.  A list that keeps atoms loses its `last`, the
one that is emptied keeps it; a list that has atoms gets the new first one as
its `last`, an empty one gets none.  There is no list for which this is right,
and appending to either of the two loses atoms.

| | |
| :-- | :-- |
| `PopPushed` | what the function should do |
| `popPush_spec` | what it does |
| `popPush_last` | both lists are left with the wrong `last` |
-/
import PureDataPacket.List.Loops

namespace PureDataPacket

/-- `pdp_list_pop_push`. -/
def pdpListPopPush (h : Heap) (source dest : Nat) : Except ListFault Heap := do
  let src ← h.header source
  -- `if (--(source->elements)){source->last = 0;}`
  let left ← intAdd src.elements (-1)
  let sourceLast := if left ≠ 0 then none else src.last
  let (a, x) ← h.atom src.first
  let h := h.setHeader source ⟨left, x.next, sourceLast⟩
  let dst ← h.header dest
  let h := h.setAtom a { x with next := dst.first }
  -- `if (dest->elements++) {dest->last = a;}`
  let count ← intAdd dst.elements 1
  let destLast := if dst.elements ≠ 0 then some a else dst.last
  .ok (h.setHeader dest ⟨count, some a, destLast⟩)

section PopPush

variable {h : Heap} {A : Lists} {source dest a : Nat} {s s' : List Nat}

/-- The first atom `a` of one list becomes the first one of another, no other
atom moves, and both are lists afterwards. -/
def PopPushed (h : Heap) (A : Lists) (source dest a : Nat) (s s' : List Nat) : Prop :=
  ∃ h', pdpListPopPush h source dest = .ok h' ∧ Rep h' ((A.set source s).set dest (a :: s'))

/-- The header that is left of the source. -/
def poppedHeader (a : Nat) (s : List Nat) : Header :=
  ⟨s.length, s.head?, if s = [] then some a else none⟩

/-- The header that the destination gets. -/
def pushedHeader (a : Nat) (s' : List Nat) : Header :=
  ⟨s'.length + 1, some a, if s' = [] then none else some a⟩

/-- What the function does: the atoms are linked as they should be, and of the
headers only `last` is wrong. -/
theorem popPush_spec (hR : Rep h A) (hne : source ≠ dest) (hs : A.seq source = some (a :: s))
    (hd : A.seq dest = some s') (hint : IsInt (s'.length + 1)) :
    ∃ h', pdpListPopPush h source dest = .ok h' ∧
      h'.lists.cells source = some (poppedHeader a s) ∧
      h'.lists.cells dest = some (pushedHeader a s') ∧
      Linked h'.atoms.cells s ∧ Linked h'.atoms.cells (a :: s') := by
  obtain ⟨⟨x, hx, hnext⟩, hlinked⟩ := hR.linked source _ hs
  obtain ⟨hpred, hpredInt⟩ := isInt_pred (hR.small source _ hs)
  have hleft : intAdd (headerOf (a :: s)).elements (-1) = .ok (s.length : Int) := by
    show intAdd ((s.length + 1 : Nat) : Int) (-1) = _
    rw [intAdd_ok (by rwa [hpred]), hpred]
  have hcount : intAdd (headerOf s').elements 1 = .ok (s'.length + 1 : Int) := intAdd_ok hint
  have hpopped : (if (s.length : Int) ≠ 0 then none else (headerOf (a :: s)).last) =
      (poppedHeader a s).last := by
    cases s with
    | nil => rfl
    | cons b s => exact if_pos (Int.natCast_ne_zero.mpr (Nat.succ_ne_zero _))
  have hpushed : (if (headerOf s').elements ≠ 0 then some a else (headerOf s').last) =
      (pushedHeader a s').last := by
    cases s' with
    | nil => rfl
    | cons b s' => exact if_pos (Int.natCast_ne_zero.mpr (Nat.succ_ne_zero _))
  -- the source's header is written before the destination's is read
  have hlists := h.lists.cells_write (a := poppedHeader a s) (hR.lists_cell hs)
  have hdestCell : (h.setHeader source (poppedHeader a s)).lists.cells dest =
      some (headerOf s') := by
    show (h.lists.write source _).cells dest = _
    rw [hlists, Function.update_of_ne hne.symm]
    exact hR.lists_cell hd
  have hdestHeader : (h.setHeader source (poppedHeader a s)).header dest = .ok (headerOf s') := by
    unfold Heap.header
    rw [hdestCell]
  refine ⟨((h.setHeader source (poppedHeader a s)).setAtom a { x with next := s'.head? }).setHeader
    dest (pushedHeader a s'), ?_, ?_, ?_, ?_, ?_⟩
  · have hfirst : (headerOf (a :: s)).first = some a := rfl
    have hmade : (⟨(s.length : Int), s.head?, (poppedHeader a s).last⟩ : Header) =
        poppedHeader a s := rfl
    simp only [pdpListPopPush, hR.header hs, ok_bind, hleft, hfirst, atom_eq hx, hpopped, hnext,
      hmade, hdestHeader, hcount, hpushed]
    rfl
  · show ((h.lists.write source _).write dest _).cells source = _
    rw [(h.lists.write source _).cells_write hdestCell, Function.update_of_ne hne, hlists,
      Function.update_self]
  · show ((h.lists.write source _).write dest _).cells dest = _
    rw [(h.lists.write source _).cells_write hdestCell, Function.update_self]
  · show Linked (h.atoms.write a _).cells s
    rw [h.atoms.cells_write hx]
    refine linked_congr (fun i hi => ?_) hlinked
    refine Function.update_of_ne (fun he : i = a => ?_) ..
    exact (List.nodup_cons.mp (hR.nodup source _ hs)).1 (he ▸ hi)
  · show Linked (h.atoms.write a _).cells (a :: s')
    rw [h.atoms.cells_write hx]
    refine ⟨⟨_, Function.update_self .., rfl⟩,
      linked_congr (fun i hi => ?_) (hR.linked dest s' hd)⟩
    refine Function.update_of_ne (fun he : i = a => ?_) ..
    exact hR.disjoint source dest _ _ hne hs hd List.mem_cons_self (he ▸ hi)

/-- A destination that is as long as an `int` can say takes no more atoms. -/
theorem popPush_overflow (hR : Rep h A) (hne : source ≠ dest) (hs : A.seq source = some (a :: s))
    (hd : A.seq dest = some s') (hint : ¬ IsInt (s'.length + 1)) :
    pdpListPopPush h source dest = .error .overflow := by
  obtain ⟨⟨x, hx, hnext⟩, _⟩ := hR.linked source _ hs
  obtain ⟨hpred, hpredInt⟩ := isInt_pred (hR.small source _ hs)
  have hleft : intAdd (headerOf (a :: s)).elements (-1) = .ok (s.length : Int) := by
    show intAdd ((s.length + 1 : Nat) : Int) (-1) = _
    rw [intAdd_ok (by rwa [hpred]), hpred]
  have hcount : intAdd (headerOf s').elements 1 = .error .overflow := if_neg hint
  have hfirst : (headerOf (a :: s)).first = some a := rfl
  have hdestHeader (hd₁ : Header) : (h.setHeader source hd₁).header dest = .ok (headerOf s') := by
    have hcell : (h.setHeader source hd₁).lists.cells dest = some (headerOf s') := by
      show (h.lists.write source hd₁).cells dest = _
      rw [h.lists.cells_write (hR.lists_cell hs), Function.update_of_ne hne.symm]
      exact hR.lists_cell hd
    unfold Heap.header
    rw [hcell]
  simp only [pdpListPopPush, hR.header hs, ok_bind, hleft, hfirst, atom_eq hx, hdestHeader, hcount,
    error_bind]

theorem poppedHeader_last (a : Nat) {s : List Nat} (ha : a ∉ s) :
    (poppedHeader a s).last ≠ (headerOf s).last := by
  cases s with
  | nil => exact Option.some_ne_none a
  | cons b s =>
      have hsome : (b :: s).getLast? ≠ none := by simp
      exact hsome.symm

theorem pushedHeader_last {a : Nat} {s' : List Nat} (ha : a ∉ s') :
    (pushedHeader a s').last ≠ (headerOf (a :: s')).last := by
  cases s' with
  | nil => exact (Option.some_ne_none a).symm
  | cons b s' =>
      show some a ≠ (a :: b :: s').getLast?
      rw [List.getLast?_cons_cons]
      exact fun he => ha (List.mem_of_getLast? he.symm)

theorem popPush_last (hR : Rep h A) (hne : source ≠ dest) (hs : A.seq source = some (a :: s))
    (hd : A.seq dest = some s') {h' : Heap} (hrun : pdpListPopPush h source dest = .ok h') :
    (∀ B, B.seq source = some s → ¬ Rep h' B) ∧
    (∀ B, B.seq dest = some (a :: s') → ¬ Rep h' B) := by
  have hint : IsInt (s'.length + 1) := by
    by_contra hint
    rw [popPush_overflow hR hne hs hd hint] at hrun
    cases hrun
  obtain ⟨_, hrun', hpopped, hpushed, _⟩ := popPush_spec hR hne hs hd hint
  obtain rfl : h' = _ := Except.ok.inj (hrun.symm.trans hrun')
  refine ⟨fun B hB hR' => ?_, fun B hB hR' => ?_⟩
  · refine poppedHeader_last a (List.nodup_cons.mp (hR.nodup source _ hs)).1 ?_
    exact congrArg Header.last (Option.some.inj (hpopped.symm.trans (hR'.lists_cell hB)))
  · have ha : a ∉ s' := fun hm => hR.disjoint source dest _ _ hne hs hd List.mem_cons_self hm
    refine pushedHeader_last ha ?_
    exact congrArg Header.last (Option.some.inj (hpushed.symm.trans (hR'.lists_cell hB)))

/-- `pdp_list_pop_push` never leaves two lists. -/
theorem popPush_never (hR : Rep h A) (hne : source ≠ dest) (hs : A.seq source = some (a :: s))
    (hd : A.seq dest = some s') : ¬ PopPushed h A source dest a s s' := by
  rintro ⟨h', hrun, hR'⟩
  have hdest : ((A.set source s).set dest (a :: s')).seq dest = some (a :: s') :=
    Lists.seq_set_self _ dest _
  exact (popPush_last hR hne hs hd hrun).2 _ hdest hR'

end PopPush

theorem two_lists : ∃ h A l m a b, Rep h A ∧ l ≠ m ∧ A.seq l = some [a, b] ∧
    A.seq m = some [] := by
  obtain ⟨h₁, A₁, s, _, hR₁, _, hlen, _⟩ := new_spec rep_empty (n := 2) (by decide)
  obtain ⟨a, b, rfl⟩ := List.length_eq_two.mp hlen
  obtain ⟨h₂, A₂, s₂, _, hR₂, hseq₂, hlen₂, _⟩ := new_spec hR₁ (n := 0) (by decide)
  obtain rfl : s₂ = [] := List.eq_nil_of_length_eq_zero hlen₂
  have hl : (A₁.set Heap.empty.lists.next [a, b]).seq Heap.empty.lists.next = some [a, b] :=
    Lists.seq_set_self ..
  have hne : Heap.empty.lists.next ≠ h₁.lists.next := by
    intro he
    have hnone := hR₁.next_list
    rw [← he, hl] at hnone
    cases hnone
  refine ⟨h₂, _, _, h₁.lists.next, a, b, hR₂, hne, ?_, Lists.seq_set_self ..⟩
  rw [Lists.seq_set_of_ne _ hne, hseq₂]
  exact hl

theorem popPush_never_two : ∃ h A l m a b, Rep h A ∧ A.seq l = some [a, b] ∧
    A.seq m = some [] ∧ ¬ PopPushed h A l m a [b] [] := by
  obtain ⟨h, A, l, m, a, b, hR, hne, hl, hm⟩ := two_lists
  exact ⟨h, A, l, m, a, b, hR, hl, hm, popPush_never hR hne hl hm⟩

/-- The list that gives its first of two atoms has no `last` afterwards. -/
theorem popPush_loses_last : ∃ h A l m a b, Rep h A ∧ l ≠ m ∧ A.seq l = some [a, b] ∧
    A.seq m = some [] ∧ ¬ PopPushed h A l m a [b] [] := by
  obtain ⟨h, A, l, m, a, b, hR, hne, hl, hm⟩ := two_lists
  refine ⟨h, A, l, m, a, b, hR, hne, hl, hm, ?_⟩
  rintro ⟨h', hrun, hR'⟩
  have hsource : ((A.set l [b]).set m [a]).seq l = some [b] := by
    rw [Lists.seq_set_of_ne _ hne, Lists.seq_set_self]
  exact (popPush_last hR hne hl hm hrun).1 _ hsource hR'

end PureDataPacket
