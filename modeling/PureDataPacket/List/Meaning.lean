/-
# `PureDataPacket.List.Meaning` — all list operations at once

`ListOp.exec` is an operation on the heap, `ListOp.Means` what it means on
sequences, and `ListOp.Legal` what it may be applied to.  Two things it may not:
`pdp_list_pop` has no atom to return from an empty list, and `elements`, an
`int`, cannot count more than `2 ^ 31 - 1` atoms.

| | |
| :-- | :-- |
| `Legal` | what an operation may be applied to |
| `Means` | what an operation means: from the lists `A` it makes the lists `B` |
| `HasRoom` | there is such a list, and it has room for `n` more atoms |
-/
import PureDataPacket.List.Loops

namespace PureDataPacket

/-- The operations of `pdp_list.h` on flat lists. -/
inductive ListOp where
  | new (elements : Int)
  | add (l : Nat) (t : WordType) (w : Word)
  | addAtom (l a : Nat)
  | addBack (l : Nat) (t : WordType) (w : Word)
  | addBackAtom (l a : Nat)
  | pop (l : Nat)
  | popAtom (l : Nat)
  | remove (l : Nat) (t : WordType) (w : Word)
  | clear (l : Nat)
  | copy (l : Nat)
  | copyReverse (l : Nat)
  | reverse (l : Nat)
  | join (l tail : Nat)
  | cat (l tail : Nat)

/-- What an operation returns. -/
inductive Returned where
  | nothing
  | list (l : Nat)
  | atom (a : Option Nat)
  | word (w : Word)

namespace ListOp

/-- The operation, as it is programmed. -/
def exec (h : Heap) : ListOp → Except ListFault (Returned × Heap)
  | new elements => (pdpListNew h elements).map fun r => (.list r.1, r.2)
  | add l t w => (pdpListAdd h l t w).map fun h => (.nothing, h)
  | addAtom l a => (pdpListAddAtom h l a).map fun h => (.nothing, h)
  | addBack l t w => (pdpListAddBack h l t w).map fun h => (.nothing, h)
  | addBackAtom l a => (pdpListAddBackAtom h l a).map fun h => (.nothing, h)
  | pop l => (pdpListPop h l).map fun r => (.word r.1, r.2)
  | popAtom l => (pdpListPopAtom h l).map fun r => (.atom r.1, r.2)
  | remove l t w => (pdpListRemove h l t w).map fun h => (.nothing, h)
  | clear l => (pdpListClear h l).map fun h => (.nothing, h)
  | copy l => (pdpListCopy h l).map fun r => (.list r.1, r.2)
  | copyReverse l => (pdpListCopyReverse h l).map fun r => (.list r.1, r.2)
  | reverse l => (pdpListReverse h l).map fun h => (.nothing, h)
  | join l tail => (pdpListJoin h l tail).map fun h => (.nothing, h)
  | cat l tail => (pdpListCat h l tail).map fun h => (.nothing, h)

/-- There is such a list, and it has room for `n` more atoms. -/
def HasRoom (A : Lists) (l n : Nat) : Prop := ∃ s, A.seq l = some s ∧ IsInt ((s.length + n : Nat) : Int)

/-- What an operation may be applied to. -/
def Legal (A : Lists) : ListOp → Prop
  | new elements => 0 ≤ elements ∧ IsInt elements
  | add l _ _ => HasRoom A l 1
  | addAtom l a => HasRoom A l 1 ∧ A.Detached a
  | addBack l _ _ => HasRoom A l 1
  | addBackAtom l a => HasRoom A l 1 ∧ A.Detached a
  | pop l => ∃ a s, A.seq l = some (a :: s)
  | popAtom l => ∃ s, A.seq l = some s
  | remove l _ _ => ∃ s, A.seq l = some s
  | clear l => ∃ s, A.seq l = some s
  | copy l => ∃ s, A.seq l = some s
  | copyReverse l => ∃ s, A.seq l = some s
  | reverse l => ∃ s, A.seq l = some s
  | join l tail => l ≠ tail ∧ ∃ s', A.seq tail = some s' ∧ HasRoom A l s'.length
  | cat l tail => ∃ s', A.seq tail = some s' ∧ HasRoom A l s'.length

/-- One new atom with a value. -/
def Fresh (A B : Lists) (i : Nat) (v : WordType × Word) : Prop := A.val i = none ∧ B = A.put i v

/-- What an operation means: from the lists `A` it makes the lists `B`. -/
def Means (A : Lists) : ListOp → Returned → Lists → Prop
  | new elements, r, B => ∃ l, r = .list l ∧
      A.Adds l (List.replicate elements.toNat (.undef, 0)) B
  | add l t w, r, B => r = .nothing ∧ ∃ s a A', A.seq l = some s ∧ Fresh A A' a (t, w) ∧
      B = A'.set l (a :: s)
  | addAtom l a, r, B => r = .nothing ∧ ∃ s, A.seq l = some s ∧ B = A.set l (a :: s)
  | addBack l t w, r, B => r = .nothing ∧ ∃ s a A', A.seq l = some s ∧ Fresh A A' a (t, w) ∧
      B = A'.set l (s ++ [a])
  | addBackAtom l a, r, B => r = .nothing ∧ ∃ s, A.seq l = some s ∧ B = A.set l (s ++ [a])
  | pop l, r, B => ∃ a s t w, A.seq l = some (a :: s) ∧ A.val a = some (t, w) ∧ r = .word w ∧
      B = (A.set l s).drop [a]
  | popAtom l, r, B => ∃ s, A.seq l = some s ∧ r = .atom s.head? ∧ B = A.set l s.tail
  | remove l t w, r, B => r = .nothing ∧ ∃ s, A.seq l = some s ∧ B = A.remove l s t w
  | clear l, r, B => r = .nothing ∧ ∃ s, A.seq l = some s ∧ B = (A.set l []).drop s
  | copy l, r, B => ∃ m s vs, A.seq l = some s ∧ A.Holds s vs ∧ r = .list m ∧ A.Adds m vs B
  | copyReverse l, r, B => ∃ m s vs, A.seq l = some s ∧ A.Holds s vs ∧ r = .list m ∧
      A.Adds m vs.reverse B
  | reverse l, r, B => r = .nothing ∧ ∃ s, A.seq l = some s ∧ B = A.set l s.reverse
  | join l tail, r, B => r = .nothing ∧ ∃ s s', A.seq l = some s ∧ A.seq tail = some s' ∧
      B = { A with seq := Function.update A.seq tail none }.set l (s ++ s')
  | cat l tail, r, B => r = .nothing ∧ ∃ s s' s'' vs A', A.seq l = some s ∧
      A.seq tail = some s' ∧ A.Holds s' vs ∧ A'.seq = A.seq ∧ NewAtoms A A' s'' vs ∧
      B = A'.set l (s ++ s'')

end ListOp

section Refines

variable {h : Heap} {A : Lists}

theorem map_ok {α β : Type} {x : Except ListFault α} {a : α} {f : α → β} (hx : x = .ok a) :
    x.map f = .ok (f a) := by
  rw [hx]
  rfl

/-- Every operation that is applied to well-formed lists leaves well-formed lists,
and does to their sequences what it means. -/
theorem exec_means (hR : Rep h A) (op : ListOp) (hop : op.Legal A) :
    ∃ r h' B, op.exec h = .ok (r, h') ∧ op.Means A r B ∧ Rep h' B := by
  cases op with
  | new elements =>
      obtain ⟨n, rfl⟩ := Int.eq_ofNat_of_zero_le hop.1
      obtain ⟨h', B, s, hrun, hR', hseq, _, hN⟩ := new_spec hR hop.2
      exact ⟨_, h', _, map_ok hrun, ⟨_, rfl, hN.adds hR.next_list hseq⟩, hR'⟩
  | add l t w =>
      obtain ⟨s, hl, hroom⟩ := hop
      obtain ⟨h', hrun, hR'⟩ := add_spec hR hl hroom t w
      exact ⟨_, h', _, map_ok hrun, ⟨rfl, s, _, _, hl, ⟨hR.next_unused, rfl⟩, rfl⟩, hR'⟩
  | addAtom l a =>
      obtain ⟨⟨s, hl, hroom⟩, ha⟩ := hop
      obtain ⟨h', hrun, hR', _⟩ := addAtom_spec hR hl ha hroom
      exact ⟨_, h', _, map_ok hrun, ⟨rfl, s, hl, rfl⟩, hR'⟩
  | addBack l t w =>
      obtain ⟨s, hl, hroom⟩ := hop
      obtain ⟨h', hrun, hR'⟩ := addBack_spec hR hl hroom t w
      exact ⟨_, h', _, map_ok hrun, ⟨rfl, s, _, _, hl, ⟨hR.next_unused, rfl⟩, rfl⟩, hR'⟩
  | addBackAtom l a =>
      obtain ⟨⟨s, hl, hroom⟩, ha⟩ := hop
      obtain ⟨h', hrun, hR'⟩ := addBackAtom_spec hR hl ha hroom
      exact ⟨_, h', _, map_ok hrun, ⟨rfl, s, hl, rfl⟩, hR'⟩
  | pop l =>
      obtain ⟨a, s, hl⟩ := hop
      obtain ⟨t, w, h', hv, hrun, hR'⟩ := pop_spec hR hl
      exact ⟨_, h', _, map_ok hrun, ⟨a, s, t, w, hl, hv, rfl, rfl⟩, hR'⟩
  | popAtom l =>
      obtain ⟨s, hl⟩ := hop
      obtain ⟨h', hrun, hR'⟩ := popAtom_spec hR hl
      exact ⟨_, h', _, map_ok hrun, ⟨s, hl, rfl, rfl⟩, hR'⟩
  | remove l t w =>
      obtain ⟨s, hl⟩ := hop
      obtain ⟨h', hrun, hR'⟩ := remove_spec (t := t) (w := w) hR hl
      exact ⟨_, h', _, map_ok hrun, ⟨rfl, s, hl, rfl⟩, hR'⟩
  | clear l =>
      obtain ⟨s, hl⟩ := hop
      obtain ⟨h', hrun, hR'⟩ := clear_spec hR hl
      exact ⟨_, h', _, map_ok hrun, ⟨rfl, s, hl, rfl⟩, hR'⟩
  | copy l =>
      obtain ⟨s, hl⟩ := hop
      obtain ⟨vs, hvs⟩ := hR.holds hl
      obtain ⟨m, h', B, s', hrun, hR', hm, hseq, hN⟩ := copy_spec hR hl hvs
      exact ⟨_, h', _, map_ok hrun, ⟨m, s, vs, hl, hvs, rfl, hN.adds hm hseq⟩, hR'⟩
  | copyReverse l =>
      obtain ⟨s, hl⟩ := hop
      obtain ⟨vs, hvs⟩ := hR.holds hl
      obtain ⟨m, h', C, hrun, hR', hC⟩ := copyReverse_spec hR hl hvs
      exact ⟨_, h', _, map_ok hrun, ⟨m, s, vs, hl, hvs, rfl, hC⟩, hR'⟩
  | reverse l =>
      obtain ⟨s, hl⟩ := hop
      obtain ⟨h', hrun, hR'⟩ := reverse_spec hR hl
      exact ⟨_, h', _, map_ok hrun, ⟨rfl, s, hl, rfl⟩, hR'⟩
  | join l tail =>
      obtain ⟨hne, s', hm, s, hl, hroom⟩ := hop
      obtain ⟨h', hrun, hR'⟩ := join_spec hR hl hm hne hroom
      exact ⟨_, h', _, map_ok hrun, ⟨rfl, s, s', hl, hm, rfl⟩, hR'⟩
  | cat l tail =>
      obtain ⟨s', hm, s, hl, hroom⟩ := hop
      obtain ⟨vs, hvs⟩ := hR.holds hm
      obtain ⟨h', B, s'', hrun, hR', hseq, hN⟩ := cat_spec hR hl hm hvs hroom
      exact ⟨_, h', _, map_ok hrun, ⟨rfl, s, s', s'', vs, B, hl, hm, hvs, hseq, hN, rfl⟩, hR'⟩

/-- A list of two atoms that gets itself behind it. -/
theorem exec_means_catSelf : ∃ h A l s r h' B, Rep h A ∧ A.seq l = some s ∧ s.length = 2 ∧
    (ListOp.cat l l).exec h = .ok (r, h') ∧ (ListOp.cat l l).Means A r B ∧ Rep h' B := by
  obtain ⟨h, A, s, _, hR, _, hlen, _⟩ := new_spec rep_empty (n := 2) (by decide)
  have hl := A.seq_set_self Heap.empty.lists.next s
  have hroom : IsInt ((s.length : Int) + s.length) := by rw [hlen]; decide
  obtain ⟨r, h', B, hmeans⟩ := exec_means hR (.cat _ _) ⟨s, hl, s, hl, hroom⟩
  exact ⟨h, _, _, s, r, h', B, hR, hl, hlen, hmeans⟩

end Refines

/-! ## What is not legal -/

/-- An empty list has nothing to pop, a list that is as long as an `int` can say
takes no more atoms, and there is no list of a negative length. -/
theorem illegal_operations :
    (∃ h A l, Rep h A ∧ A.seq l = some [] ∧ (ListOp.pop l).exec h = .error .badPointer) ∧
    (∃ h A l s, Rep h A ∧ A.seq l = some s ∧
      (ListOp.add l .int 0).exec h = .error .overflow) ∧
    (ListOp.new (-1)).exec .empty = .error .overflow := by
  refine ⟨?_, ?_, rfl⟩
  · obtain ⟨h', B, s, _, hR, _, hlen, _⟩ := new_spec rep_empty (n := 0) (by decide)
    obtain rfl : s = [] := List.eq_nil_of_length_eq_zero hlen
    refine ⟨h', _, _, hR, B.seq_set_self _ [], ?_⟩
    show Except.map _ (pdpListPop h' _) = _
    rw [pop_empty hR (B.seq_set_self _ [])]
    rfl
  · obtain ⟨h', B, s, _, hR, _, hlen, _⟩ := new_spec rep_empty (n := 2147483647) (by decide)
    refine ⟨h', _, _, s, hR, B.seq_set_self _ s, ?_⟩
    have hfull : ¬ IsInt (s.length + 1) := by
      rw [hlen]
      decide
    show Except.map _ (pdpListAdd h' _ _ _) = _
    rw [add_overflow hR (B.seq_set_self _ s) hfull]
    rfl

end PureDataPacket
