/-
# `PureDataPacket.List.Heap` — lists of atoms, as they lie in memory

A list is a header with the number of its atoms, the first and the last of
them; an atom has a type, a word and the next atom.  The operations relink
atoms and keep the three fields of the header up to date, one by one.

Pointers are `Option Nat`: null, or a cell of the heap.  A null pointer and one
to a cell that was given back cannot be followed.  `elements` is an `int`, and
counting past its end is a fault.  Loops that follow `next` are bounded by the
number of cells: one that takes longer goes round in a circle.
-/
import PureDataPacket.Lib.Arena
import PureDataPacket.Lib.CInt

namespace PureDataPacket

/-- `t_pdp_word_type`. -/
inductive WordType where
  | undef
  | pointer
  | float
  | int
  | symbol
  | packet
  | list
  | atomPointer
  | forthWord
  | vmWord
  | vmMacro
deriving DecidableEq

/-- `t_pdp_word`: the bits of the union. -/
abbrev Word : Type := Nat

/-- `w_int`. -/
def wInt (w : Word) : Int := toInt32 w

/-- `t_pdp_atom`. -/
structure Atom where
  next : Option Nat
  w : Word
  t : WordType

/-- `t_pdp_list`. -/
structure Header where
  elements : Int
  first : Option Nat
  last : Option Nat

/-- Why an operation does not end well. -/
inductive ListFault where
  /-- a null pointer, or one to a cell that was given back, is followed -/
  | badPointer
  /-- `elements` leaves the range of an `int` -/
  | overflow
  /-- a loop along `next` does not end -/
  | endless
deriving DecidableEq

/-- The atoms and the list headers that are in use. -/
structure Heap where
  atoms : Arena Atom
  lists : Arena Header

namespace Heap

/-- No list has been made yet. -/
def empty : Heap := ⟨.empty, .empty⟩

/-- Follow a pointer to an atom. -/
def atom (h : Heap) (p : Option Nat) : Except ListFault (Nat × Atom) :=
  match p with
  | none => .error .badPointer
  | some i =>
      match h.atoms.cells i with
      | none => .error .badPointer
      | some a => .ok (i, a)

/-- Follow a pointer to a list. -/
def header (h : Heap) (l : Nat) : Except ListFault Header :=
  match h.lists.cells l with
  | none => .error .badPointer
  | some hd => .ok hd

def setAtom (h : Heap) (i : Nat) (a : Atom) : Heap := { h with atoms := h.atoms.write i a }

def setHeader (h : Heap) (l : Nat) (hd : Header) : Heap := { h with lists := h.lists.write l hd }

/-- `PDP_ATOM_DEALLOC`. -/
def deallocAtom (h : Heap) (i : Nat) : Heap := { h with atoms := h.atoms.dealloc i }

/-- `PDP_LIST_DEALLOC`. -/
def deallocList (h : Heap) (l : Nat) : Heap := { h with lists := h.lists.dealloc l }

/-- More steps than any list that ends can take. -/
def loopBound (h : Heap) : Nat := h.atoms.bound + 1

end Heap

/-- A sum of two `int`s. -/
def intAdd (a b : Int) : Except ListFault Int :=
  if IsInt (a + b) then .ok (a + b) else .error .overflow

section Operations

variable (h : Heap)

/-- The body of the second loop of `pdp_list_new`. -/
def pushUndef (l : Nat) : Except ListFault Heap := do
  let hd ← h.header l
  let elements ← intAdd hd.elements 1
  let a := h.atoms.next
  .ok { atoms := h.atoms.alloc ⟨hd.first, 0, .undef⟩
        lists := h.lists.write l { hd with elements := elements, first := some a } }

/-- The second loop of `pdp_list_new`. -/
def pushUndefs (l : Nat) : Nat → Heap → Except ListFault Heap
  | 0, h => .ok h
  | n + 1, h => do
      let h ← pushUndef h l
      pushUndefs l n h

/-- `pdp_list_new`.  A negative number is counted down until there are no more
`int`s. -/
def pdpListNew (elements : Int) : Except ListFault (Nat × Heap) :=
  let l := h.lists.next
  if elements < 0 then .error .overflow
  else match elements.toNat with
    | 0 => .ok (l, { h with lists := h.lists.alloc ⟨0, none, none⟩ })
    | n + 1 => do
        let a := h.atoms.next
        let h := ⟨h.atoms.alloc ⟨none, 0, .undef⟩, h.lists.alloc ⟨1, some a, some a⟩⟩
        let h ← pushUndefs l n h
        .ok (l, h)

/-- The loop of `pdp_list_clear`. -/
def clearAtoms : Nat → Option Nat → Heap → Except ListFault Heap
  | 0, _, _ => .error .endless
  | _ + 1, none, h => .ok h
  | n + 1, some i, h => do
      let (i, a) ← h.atom (some i)
      clearAtoms n a.next (h.deallocAtom i)

/-- `pdp_list_clear`. -/
def pdpListClear (l : Nat) : Except ListFault Heap := do
  let hd ← h.header l
  let h ← clearAtoms h.loopBound hd.first h
  .ok (h.setHeader l ⟨0, none, none⟩)

/-- `pdp_list_add_atom`. -/
def pdpListAddAtom (l a : Nat) : Except ListFault Heap := do
  let hd ← h.header l
  let (a, x) ← h.atom (some a)
  let elements ← intAdd hd.elements 1
  let last := if hd.last = none then some a else hd.last
  .ok ((h.setAtom a { x with next := hd.first }).setHeader l ⟨elements, some a, last⟩)

/-- `pdp_list_add`. -/
def pdpListAdd (l : Nat) (t : WordType) (w : Word) : Except ListFault Heap :=
  pdpListAddAtom { h with atoms := h.atoms.alloc ⟨none, w, t⟩ } l h.atoms.next

/-- `pdp_list_add_back_atom`. -/
def pdpListAddBackAtom (l a : Nat) : Except ListFault Heap := do
  let hd ← h.header l
  let elements ← intAdd hd.elements 1
  let (a, x) ← h.atom (some a)
  let h := h.setAtom a { x with next := none }
  match hd.last with
  | some last => do
      let (last, y) ← h.atom (some last)
      .ok ((h.setAtom last { y with next := some a }).setHeader l ⟨elements, hd.first, some a⟩)
  | none => .ok (h.setHeader l ⟨elements, some a, some a⟩)

/-- `pdp_list_add_back`. -/
def pdpListAddBack (l : Nat) (t : WordType) (w : Word) : Except ListFault Heap :=
  pdpListAddBackAtom { h with atoms := h.atoms.alloc ⟨none, w, t⟩ } l h.atoms.next

/-- `pdp_list_pop_atom`, on a header that may be anywhere. -/
def popAtom (hd : Header) : Except ListFault (Option Nat × Header × Heap) :=
  match hd.first with
  | none => .ok (none, hd, h)
  | some a => do
      let (a, x) ← h.atom (some a)
      let elements ← intAdd hd.elements (-1)
      let last := if x.next = none then none else hd.last
      .ok (some a, ⟨elements, x.next, last⟩, h.setAtom a { x with next := none })

/-- `pdp_list_pop_atom`. -/
def pdpListPopAtom (l : Nat) : Except ListFault (Option Nat × Heap) := do
  let hd ← h.header l
  let (a, hd, h) ← popAtom h hd
  .ok (a, h.setHeader l hd)

/-- `pdp_list_pop`, which does not ask whether there is an atom. -/
def pdpListPop (l : Nat) : Except ListFault (Word × Heap) := do
  let (a, h) ← pdpListPopAtom h l
  let (a, x) ← h.atom a
  .ok (x.w, h.deallocAtom a)

/-- `a->next = a->next->next` in `pdp_list_remove`; null is the atom of its own
that the source has in front of the first one. -/
def unlink (prev next : Option Nat) : Except ListFault Heap :=
  match prev with
  | none => .ok h
  | some j => do
      let (j, y) ← h.atom (some j)
      .ok (h.setAtom j { y with next := next })

/-- The loop of `pdp_list_remove`.  `prev` is the atom before `p`. -/
def removeAtom (l : Nat) (t : WordType) (w : Word) :
    Nat → Option Nat → Option Nat → Heap → Except ListFault Heap
  | 0, _, _, _ => .error .endless
  | _ + 1, _, none, h => .ok h
  | n + 1, prev, some i, h => do
      let (i, x) ← h.atom (some i)
      if wInt x.w = wInt w ∧ x.t = t then do
        let h ← unlink h prev x.next
        let hd ← h.header l
        let elements ← intAdd hd.elements (-1)
        let first := if prev = none then x.next else hd.first
        let last := if hd.last = some i then prev else hd.last
        .ok ((h.deallocAtom i).setHeader l ⟨elements, first, last⟩)
      else removeAtom l t w n (some i) x.next h

/-- `pdp_list_remove`: an atom is recognised by its type and `w_int`. -/
def pdpListRemove (l : Nat) (t : WordType) (w : Word) : Except ListFault Heap := do
  let hd ← h.header l
  removeAtom l t w h.loopBound none hd.first h

/-- The loop of `pdp_list_copy_reverse`. -/
def addAll (l : Nat) : Nat → Option Nat → Heap → Except ListFault Heap
  | 0, _, _ => .error .endless
  | _ + 1, none, h => .ok h
  | n + 1, some i, h => do
      let (_, x) ← h.atom (some i)
      let h ← pdpListAdd h l x.t x.w
      addAll l n x.next h

/-- `pdp_list_copy_reverse`. -/
def pdpListCopyReverse (l : Nat) : Except ListFault (Nat × Heap) := do
  let bound := h.loopBound
  let (newlist, h) ← pdpListNew h 0
  let hd ← h.header l
  let h ← addAll newlist bound hd.first h
  .ok (newlist, h)

/-- The loop of `pdp_list_copy`. -/
def copyWords : Nat → Option Nat → Option Nat → Heap → Except ListFault Heap
  | 0, _, _, _ => .error .endless
  | _ + 1, none, _, h => .ok h
  | n + 1, some i, dst, h => do
      let (_, x) ← h.atom (some i)
      let (j, y) ← h.atom dst
      copyWords n x.next y.next (h.setAtom j ⟨y.next, x.w, x.t⟩)

/-- `pdp_list_copy`. -/
def pdpListCopy (l : Nat) : Except ListFault (Nat × Heap) := do
  let bound := h.loopBound
  let hd ← h.header l
  let (newlist, h) ← pdpListNew h hd.elements
  let newhd ← h.header newlist
  let h ← copyWords bound hd.first newhd.first h
  .ok (newlist, h)

/-- `pdp_list_join`. -/
def pdpListJoin (l tail : Nat) : Except ListFault Heap := do
  let tl ← h.header tail
  let h ←
    if tl.elements ≠ 0 then do
      let hd ← h.header l
      let elements ← intAdd hd.elements tl.elements
      match hd.last with
      | some last => do
          let (last, y) ← h.atom (some last)
          .ok ((h.setAtom last { y with next := tl.first }).setHeader l
            ⟨elements, hd.first, tl.last⟩)
      | none => .ok (h.setHeader l ⟨elements, tl.first, tl.last⟩)
    else .ok h
  .ok (h.deallocList tail)

/-- `pdp_list_cat`. -/
def pdpListCat (l tail : Nat) : Except ListFault Heap := do
  let (tmp, h) ← pdpListCopy h tail
  pdpListJoin h l tmp

/-- The loop of `pdp_list_reverse`: `tmp` is a header of its own. -/
def reverseAtoms (l : Nat) : Nat → Header → Heap → Except ListFault Heap
  | 0, _, _ => .error .endless
  | n + 1, tmp, h => do
      let (a, tmp, h) ← popAtom h tmp
      match a with
      | none => .ok h
      | some a => do
          let h ← pdpListAddAtom h l a
          reverseAtoms l n tmp h

/-- `pdp_list_reverse`. -/
def pdpListReverse (l : Nat) : Except ListFault Heap := do
  let tmp ← h.header l
  reverseAtoms l h.loopBound tmp (h.setHeader l ⟨0, none, none⟩)

end Operations

end PureDataPacket
