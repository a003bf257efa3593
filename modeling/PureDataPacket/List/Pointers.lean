/-
# `PureDataPacket.List.Pointers` — lists of pointers, compared as `int`s

`pdp_list_contains` and `pdp_list_remove` compare words by `w_int`, whatever the
type of the atom.  A pointer is wider than an `int`: two pointers that agree in
their lower 32 bits are alike to these functions, and the first pointer that is
alike is taken for the one that was asked for.

| | |
| :-- | :-- |
| `IsPointer` | the atom `i` is the pointer `p` |
| `FirstAlike` | the condition |
| `PointerOps` | what should be |
| `firstAlike_of_remove` | why there is no weaker one |
-/
import PureDataPacket.List.Loops

namespace PureDataPacket

/-- The loop of `pdp_list_contains`. -/
def containsAtom (t : WordType) (w : Word) : Nat → Option Nat → Heap → Except ListFault Bool
  | 0, _, _ => .error .endless
  | _ + 1, none, _ => .ok false
  | n + 1, some i, h => do
      let (_, x) ← h.atom (some i)
      if wInt x.w = wInt w ∧ x.t = t then .ok true else containsAtom t w n x.next h

/-- `pdp_list_contains`. -/
def pdpListContains (h : Heap) (l : Nat) (t : WordType) (w : Word) : Except ListFault Bool := do
  let hd ← h.header l
  containsAtom t w h.loopBound hd.first h

/-- `pdp_list_add_to_set`. -/
def pdpListAddToSet (h : Heap) (l : Nat) (t : WordType) (w : Word) : Except ListFault Heap := do
  let contained ← pdpListContains h l t w
  if contained then .ok h else pdpListAdd h l t w

/-- `pdp_list_contains_pointer`. -/
def pdpListContainsPointer (h : Heap) (l : Nat) (p : Word) : Except ListFault Bool :=
  pdpListContains h l .pointer p

/-- `pdp_list_remove_pointer`. -/
def pdpListRemovePointer (h : Heap) (l : Nat) (p : Word) : Except ListFault Heap :=
  pdpListRemove h l .pointer p

/-- `pdp_list_add_pointer_to_set`. -/
def pdpListAddPointerToSet (h : Heap) (l : Nat) (p : Word) : Except ListFault Heap :=
  pdpListAddToSet h l .pointer p

/-! ## What the loops compute -/

section Contains

variable {h : Heap} {A : Lists} {l : Nat} {s : List Nat} {t : WordType} {w : Word}

theorem containsAtom_spec (hR : Rep h A) {pre post : List Nat} (hl : A.seq l = some (pre ++ post))
    {n : Nat} (hn : post.length < n) :
    containsAtom t w n post.head? h = .ok (post.any (A.Matches t w)) := by
  induction post generalizing pre n with
  | nil =>
      cases n with
      | zero => exact absurd hn (Nat.not_lt_zero _)
      | succ n => rfl
  | cons i post ih =>
      cases n with
      | zero => exact absurd hn (Nat.not_lt_zero _)
      | succ n =>
          obtain ⟨⟨x, hx, hnext⟩, _⟩ := linked_suffix (hR.linked l _ hl)
          rw [List.head?_cons, List.any_cons]
          unfold containsAtom
          simp only [atom_eq hx, ok_bind, hnext]
          cases hm : A.Matches t w i with
          | true => rw [if_pos ((matches_eq hR hx).mp hm), Bool.true_or]
          | false =>
              have hcond : ¬ (wInt x.w = wInt w ∧ x.t = t) := by
                rw [← matches_eq hR hx, hm]
                exact Bool.false_ne_true
              have hl' : A.seq l = some ((pre ++ [i]) ++ post) := by
                rw [List.append_assoc]
                exact hl
              rw [if_neg hcond, Bool.false_or]
              exact ih hl' (Nat.lt_of_succ_lt_succ hn)

theorem contains_spec (hR : Rep h A) (hl : A.seq l = some s) :
    pdpListContains h l t w = .ok (s.any (A.Matches t w)) := by
  have hfirst : (headerOf s).first = s.head? := rfl
  have hl' : A.seq l = some ([] ++ s) := hl
  simp only [pdpListContains, hR.header hl, ok_bind, hfirst]
  exact containsAtom_spec hR hl' (hR.length_lt hl)

theorem addToSet_found (hR : Rep h A) (hl : A.seq l = some s)
    (hfound : s.any (A.Matches t w) = true) : pdpListAddToSet h l t w = .ok h := by
  simp only [pdpListAddToSet, contains_spec hR hl, ok_bind, hfound, if_true]

theorem addToSet_missing (hR : Rep h A) (hl : A.seq l = some s)
    (hmissing : s.any (A.Matches t w) = false) :
    pdpListAddToSet h l t w = pdpListAdd h l t w := by
  simp only [pdpListAddToSet, contains_spec hR hl, ok_bind, hmissing, Bool.false_eq_true, if_false]

end Contains

/-! ## Sets of pointers -/

namespace Lists

variable (A : Lists)

/-- The atom `i` is the pointer `p`. -/
def IsPointer (p : Word) (i : Nat) : Prop := A.val i = some (.pointer, p)

instance (p : Word) : DecidablePred (A.IsPointer p) := fun _ => inferInstanceAs (Decidable (_ = _))

/-- A list with the atoms `s` holds the pointer `p`. -/
def HasPointer (s : List Nat) (p : Word) : Prop := ∃ i ∈ s, A.IsPointer p i

def IsSet (s : List Nat) : Prop :=
  ∀ p, ∀ i ∈ s, ∀ j ∈ s, A.IsPointer p i → A.IsPointer p j → i = j

/-- The list without the first atom that is the pointer `p`, and that atom. -/
def removePointer (l : Nat) (s : List Nat) (p : Word) : Lists :=
  match s.find? (fun i => decide (A.IsPointer p i)) with
  | none => A
  | some i => (A.set l (s.erase i)).drop [i]

/-- The first pointer in the list that agrees with `p` in the lower 32 bits, if
there is one, is `p`. -/
def FirstAlike (s : List Nat) (p : Word) : Prop :=
  ∀ i, s.find? (A.Matches .pointer p) = some i → A.IsPointer p i

end Lists

/-- The operations do with the pointer `p` what they should. -/
structure PointerOps (h : Heap) (A : Lists) (l : Nat) (s : List Nat) (p : Word) : Prop where
  contains : ∃ b, pdpListContainsPointer h l p = .ok b ∧ (b = true ↔ A.HasPointer s p)
  remove : ∃ h', pdpListRemovePointer h l p = .ok h' ∧ Rep h' (A.removePointer l s p)
  addToSet : ∃ h' B s', pdpListAddPointerToSet h l p = .ok h' ∧ Rep h' B ∧ B.seq l = some s' ∧
    B.HasPointer s' p ∧ (A.IsSet s → B.IsSet s')

section Pointers

variable {h : Heap} {A : Lists} {l : Nat} {s : List Nat} {p : Word}

theorem matches_of_isPointer {i : Nat} (hi : A.IsPointer p i) :
    A.Matches .pointer p i = true := by
  unfold Lists.Matches
  rw [hi]
  simp

theorem any_of_hasPointer (hp : A.HasPointer s p) : s.any (A.Matches .pointer p) = true := by
  obtain ⟨i, hi, hip⟩ := hp
  exact List.any_eq_true.mpr ⟨i, hi, matches_of_isPointer hip⟩

/-- Where the first pointer that is alike is the right one, looking for it and
looking for one that is alike are the same. -/
theorem Lists.FirstAlike.any (hfirst : A.FirstAlike s p) :
    s.any (A.Matches .pointer p) = true ↔ A.HasPointer s p := by
  refine ⟨fun hany => ?_, any_of_hasPointer⟩
  obtain ⟨i, hi, hm⟩ := List.any_eq_true.mp hany
  cases hf : s.find? (A.Matches .pointer p) with
  | none => exact absurd hm (List.find?_eq_none.mp hf i hi)
  | some j => exact ⟨j, List.mem_of_find?_eq_some hf, hfirst j hf⟩

theorem Lists.FirstAlike.find (hfirst : A.FirstAlike s p) :
    s.find? (A.Matches .pointer p) = s.find? (fun i => decide (A.IsPointer p i)) := by
  induction s with
  | nil => rfl
  | cons i s ih =>
      cases hm : A.Matches .pointer p i with
      | true =>
          have hip : A.IsPointer p i := hfirst i (List.find?_cons_of_pos hm)
          rw [List.find?_cons_of_pos hm]
          exact (List.find?_cons_of_pos (p := fun i => decide (A.IsPointer p i))
            (decide_eq_true hip)).symm
      | false =>
          have hneg : ¬ A.Matches .pointer p i = true := by
            rw [hm]
            exact Bool.false_ne_true
          have hip : ¬ decide (A.IsPointer p i) = true := fun hd =>
            hneg (matches_of_isPointer (of_decide_eq_true hd))
          have hrest : (i :: s).find? (fun i => decide (A.IsPointer p i)) =
              s.find? (fun i => decide (A.IsPointer p i)) := List.find?_cons_of_neg hip
          rw [List.find?_cons_of_neg hneg, hrest]
          refine ih fun j hj => hfirst j ?_
          rw [List.find?_cons_of_neg hneg, hj]

theorem Lists.FirstAlike.remove (hfirst : A.FirstAlike s p) :
    A.remove l s .pointer p = A.removePointer l s p := by
  have hfind := hfirst.find
  unfold Lists.remove Lists.removePointer
  generalize s.find? (A.Matches .pointer p) = found at hfind ⊢
  subst hfind
  rfl

theorem Rep.val_unique {B : Lists} (hA : Rep h A) (hB : Rep h B) : A.val = B.val :=
  funext fun i => (hA.values i).trans (hB.values i).symm

/-- `pdp_list_remove_pointer` removes the right atom only where the first one that
is alike is the right one. -/
theorem firstAlike_of_remove (hR : Rep h A) (hl : A.seq l = some s) {h' : Heap}
    (hrun : pdpListRemovePointer h l p = .ok h') (hR' : Rep h' (A.removePointer l s p)) :
    A.FirstAlike s p := by
  intro j hj
  obtain ⟨h'', hrun', hR''⟩ := remove_spec (t := .pointer) (w := p) hR hl
  obtain rfl : h' = h'' := Except.ok.inj (hrun.symm.trans hrun')
  have hval : (A.remove l s .pointer p).val j = none := by
    unfold Lists.remove
    rw [hj]
    exact if_pos List.mem_cons_self
  rw [hR''.val_unique hR'] at hval
  have hlive := hR.val_ne_none hl (List.mem_of_find?_eq_some hj)
  unfold Lists.removePointer at hval
  cases hf : s.find? (fun i => decide (A.IsPointer p i)) with
  | none =>
      rw [hf] at hval
      exact absurd hval hlive
  | some i =>
      rw [hf] at hval
      by_cases hji : j = i
      · have hip := List.find?_some hf
        rw [hji]
        exact of_decide_eq_true hip
      · have hkeep : ((A.set l (s.erase i)).drop [i]).val j = A.val j :=
          if_neg fun hm => hji (List.mem_singleton.mp hm)
        exact absurd (hkeep.symm.trans hval) hlive

theorem addPointerToSet_spec (hR : Rep h A) (hl : A.seq l = some s) (hfirst : A.FirstAlike s p)
    (hroom : A.HasPointer s p ∨ IsInt (s.length + 1)) :
    ∃ h' B s', pdpListAddPointerToSet h l p = .ok h' ∧ Rep h' B ∧ B.seq l = some s' ∧
      B.HasPointer s' p ∧ (A.IsSet s → B.IsSet s') := by
  cases hany : s.any (A.Matches .pointer p) with
  | true =>
      exact ⟨h, A, s, addToSet_found hR hl hany, hR, hl, hfirst.any.mp hany, id⟩
  | false =>
      have hnot : ¬ A.HasPointer s p := fun hp => by
        rw [any_of_hasPointer hp] at hany
        cases hany
      obtain ⟨h', hrun, hR'⟩ := add_spec hR hl (hroom.resolve_left hnot) .pointer p
      have hold : ∀ i ∈ s, (A.put h.atoms.next (.pointer, p)).val i = A.val i := fun i hi =>
        Function.update_of_ne (fun he : i = _ => hR.val_ne_none hl hi (he ▸ hR.next_unused)) ..
      have hnew : (A.put h.atoms.next (.pointer, p)).val h.atoms.next = some (.pointer, p) :=
        Function.update_self ..
      refine ⟨h', _, h.atoms.next :: s, (addToSet_missing hR hl hany).trans hrun, hR',
        Lists.seq_set_self .., ⟨h.atoms.next, List.mem_cons_self, hnew⟩, fun hset => ?_⟩
      -- the new atom is the only one with this pointer
      have hfresh : ∀ q, ∀ i ∈ s, (A.put h.atoms.next (.pointer, p)).IsPointer q h.atoms.next →
          (A.put h.atoms.next (.pointer, p)).IsPointer q i → False := by
        intro q i hi hq hqi
        obtain rfl : p = q := congrArg Prod.snd (Option.some.inj (hnew.symm.trans hq))
        exact hnot ⟨i, hi, (hold i hi).symm.trans hqi⟩
      intro q i hi j hj hqi hqj
      rcases List.mem_cons.mp hi with rfl | hi <;> rcases List.mem_cons.mp hj with rfl | hj
      · rfl
      · exact (hfresh q j hj hqi hqj).elim
      · exact (hfresh q i hi hqj hqi).elim
      · exact hset q i hi j hj ((hold i hi).symm.trans hqi) ((hold j hj).symm.trans hqj)

/-- A list that is as long as an `int` can say does not take another pointer. -/
theorem room_of_addPointerToSet (hR : Rep h A) (hl : A.seq l = some s)
    (hfirst : A.FirstAlike s p) {h' : Heap} (hrun : pdpListAddPointerToSet h l p = .ok h') :
    A.HasPointer s p ∨ IsInt (s.length + 1) := by
  by_contra hnot
  obtain ⟨hnot, hfull⟩ := not_or.mp hnot
  have hany : s.any (A.Matches .pointer p) = false :=
    Bool.eq_false_iff.mpr fun hany => hnot (hfirst.any.mp hany)
  have herror := (addToSet_missing hR hl hany).trans (add_overflow hR hl hfull .pointer p)
  rw [pdpListAddPointerToSet, herror] at hrun
  cases hrun

/-- The operations on pointers are right exactly where the first pointer that
agrees with the given one in 32 bits is the given one, and where there is room
for it if it is not there. -/
theorem pointerOps_iff (hR : Rep h A) (hl : A.seq l = some s) :
    PointerOps h A l s p ↔
      A.FirstAlike s p ∧ (A.HasPointer s p ∨ IsInt (s.length + 1)) := by
  constructor
  · intro hops
    obtain ⟨_, hrun, hR'⟩ := hops.remove
    obtain ⟨_, _, _, hadd, _⟩ := hops.addToSet
    have hfirst := firstAlike_of_remove hR hl hrun hR'
    exact ⟨hfirst, room_of_addPointerToSet hR hl hfirst hadd⟩
  · rintro ⟨hfirst, hroom⟩
    refine ⟨⟨_, contains_spec hR hl, hfirst.any⟩, ?_, addPointerToSet_spec hR hl hfirst hroom⟩
    obtain ⟨h', hrun, hR'⟩ := remove_spec (t := .pointer) (w := p) hR hl
    exact ⟨h', hrun, hfirst.remove (l := l) ▸ hR'⟩

end Pointers

theorem one_pointer (p : Word) : ∃ h A l i, Rep h A ∧ A.seq l = some [i] ∧ A.IsPointer p i := by
  obtain ⟨h, B, s, _, hR, _, hlen, _⟩ := new_spec rep_empty (n := 0) (by decide)
  obtain rfl : s = [] := List.eq_nil_of_length_eq_zero hlen
  obtain ⟨h', _, hR'⟩ := add_spec hR (B.seq_set_self _ []) (by decide) .pointer p
  exact ⟨h', _, _, h.atoms.next, hR', Lists.seq_set_self .., Function.update_self ..⟩

/-- The pointer is in the list, before one that looks the same. -/
theorem pointerOps_before : ∃ h A l i j, Rep h A ∧ A.seq l = some [i, j] ∧
    A.IsPointer 0x7fff00001000 i ∧ A.IsPointer 0x7ffe00001000 j ∧
    PointerOps h A l [i, j] 0x7fff00001000 := by
  obtain ⟨h, A, l, j, hR, hl, hj⟩ := one_pointer 0x7ffe00001000
  have hroom : IsInt (([j].length : Int) + 1) := (by decide : IsInt 2)
  obtain ⟨h', _, hR'⟩ := add_spec hR hl hroom .pointer 0x7fff00001000
  have hl' := (A.put h.atoms.next (.pointer, 0x7fff00001000)).seq_set_self l [h.atoms.next, j]
  have hi : ((A.put h.atoms.next (.pointer, 0x7fff00001000)).set l
      [h.atoms.next, j]).IsPointer 0x7fff00001000 h.atoms.next := Function.update_self ..
  have hne : j ≠ h.atoms.next := by
    rintro rfl
    exact Option.some_ne_none _ (hj.symm.trans hR.next_unused)
  refine ⟨h', _, l, _, j, hR', hl', hi, (Function.update_of_ne hne ..).trans hj,
    (pointerOps_iff hR' hl').mpr ⟨fun k hk => ?_, Or.inl ⟨_, List.mem_cons_self, hi⟩⟩⟩
  have halike : ((A.put h.atoms.next (.pointer, 0x7fff00001000)).set l
      [h.atoms.next, j]).Matches .pointer 0x7fff00001000 h.atoms.next = true := by
    unfold Lists.Matches
    rw [hi]
    decide
  rw [List.find?_cons_of_pos halike] at hk
  exact Option.some.inj hk ▸ hi

/-- Two pointers whose addresses differ by `2 ^ 32` are taken for each other. -/
theorem pointerOps_alike : ∃ h A l i, Rep h A ∧ A.seq l = some [i] ∧
    A.IsPointer 0x7ffe00001000 i ∧ ¬ PointerOps h A l [i] 0x7fff00001000 := by
  obtain ⟨h, A, l, i, hR, hl, hi⟩ := one_pointer 0x7ffe00001000
  refine ⟨h, A, l, i, hR, hl, hi, fun hops => ?_⟩
  obtain ⟨_, hrun, hR'⟩ := hops.remove
  have halike : A.Matches .pointer 0x7fff00001000 i = true := by
    unfold Lists.Matches
    rw [hi]
    decide
  have hp := firstAlike_of_remove hR hl hrun hR' i (List.find?_cons_of_pos halike)
  have heq := congrArg Prod.snd (Option.some.inj (hi.symm.trans hp))
  exact absurd heq (by decide)

end PureDataPacket
