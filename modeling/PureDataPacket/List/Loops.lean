/-
# `PureDataPacket.List.Loops` — the list operations that go through a list

The induction is always on what is left of the sequence.  Where a loop makes
atoms, what is carried along is that the new list has new atoms, with the values
of what has been gone through (`NewAtoms`).

| | |
| :-- | :-- |
| `Lists.Holds` | `s` has the values `vs` |
| `new_spec` | `pdp_list_new` makes a list of atoms without a value |
| `addAll_spec` | everything from `post` on is added to the list `m`, one by one |
| `copyWords_spec` | the words from `post` on are written to the atoms from `post'` on |
| `reverseAtoms_spec` | the loop of `pdp_list_reverse` |
-/
import PureDataPacket.List.Operations

namespace PureDataPacket

/-! ## `pdp_list_clear` -/

section Clear

variable {h : Heap} {A : Lists} {l : Nat} {s : List Nat}

theorem clearAtoms_spec {n : Nat} (hn : s.length < n) (hs : Linked h.atoms.cells s)
    (hnd : s.Nodup) :
    ∃ h', clearAtoms n s.head? h = .ok h' ∧ h'.lists = h.lists ∧
      ∀ i, h'.atoms.cells i = if i ∈ s then none else h.atoms.cells i := by
  induction s generalizing n h with
  | nil =>
      cases n with
      | zero => exact absurd hn (Nat.not_lt_zero _)
      | succ n => exact ⟨h, rfl, rfl, fun i => (if_neg List.not_mem_nil).symm⟩
  | cons a s ih =>
      cases n with
      | zero => exact absurd hn (Nat.not_lt_zero _)
      | succ n =>
          obtain ⟨⟨x, hx, hnext⟩, hs⟩ := hs
          obtain ⟨ha, hnd⟩ := List.nodup_cons.mp hnd
          have hcells := h.atoms.cells_dealloc hx
          have hs' : Linked (h.deallocAtom a).atoms.cells s := by
            refine linked_congr (fun i hi => ?_) hs
            show (h.atoms.dealloc a).cells i = _
            rw [hcells]
            exact Function.update_of_ne (fun he : i = a => ha (he ▸ hi)) ..
          obtain ⟨h', hrun, hlists, hc⟩ := ih (Nat.lt_of_succ_lt_succ hn) hs' hnd
          refine ⟨h', ?_, hlists, fun i => ?_⟩
          · simp only [List.head?_cons, clearAtoms, atom_eq hx, ok_bind, hnext, hrun]
          · have hcell : (h.deallocAtom a).atoms.cells i =
                Function.update h.atoms.cells a none i := congrFun hcells i
            rw [hc i, hcell]
            by_cases hia : i = a
            · rw [hia, if_neg ha, Function.update_self, if_pos List.mem_cons_self]
            · rw [Function.update_of_ne hia]
              simp only [List.mem_cons, hia, false_or]

theorem clear_spec (hR : Rep h A) (hl : A.seq l = some s) :
    ∃ h', pdpListClear h l = .ok h' ∧ Rep h' ((A.set l []).drop s) := by
  obtain ⟨h₁, hrun, hlists, hc⟩ :=
    clearAtoms_spec (hR.length_lt hl) (hR.linked l s hl) (hR.nodup l s hl)
  refine ⟨h₁.setHeader l (headerOf []), ?_, ?_⟩
  · have hfirst : (headerOf s).first = s.head? := rfl
    simp only [pdpListClear, hR.header hl, ok_bind, hfirst, hrun]
    rfl
  · refine hR.change_to (l := l) (s := []) ?_ trivial List.nodup_nil ⟨by decide, by decide⟩ ?_ rfl ?_
    · show (h₁.lists.write l _).cells = _
      rw [hlists]
      exact h.lists.cells_write (hR.lists_cell hl)
    · intro l' s' hne hl' i hi
      exact ⟨List.not_mem_nil, (hc i).trans (if_neg (hR.apart hl hne hl' hi))⟩
    · intro i
      show (if i ∈ s then none else A.val i) = (h₁.atoms.cells i).map _
      rw [hc i, hR.values i]
      split
      · rfl
      · rfl

end Clear

/-! ## `pdp_list_remove` -/

/-- The atom that `pdp_list_remove` looks for. -/
def Lists.Matches (A : Lists) (t : WordType) (w : Word) (i : Nat) : Bool :=
  match A.val i with
  | none => false
  | some (t', w') => decide (wInt w' = wInt w) && decide (t' = t)

section Remove

variable {h : Heap} {A : Lists} {l : Nat} {t : WordType} {w : Word}

theorem matches_eq (hR : Rep h A) {i : Nat} {x : Atom} (hx : h.atoms.cells i = some x) :
    A.Matches t w i = true ↔ wInt x.w = wInt w ∧ x.t = t := by
  have hv : A.val i = some (x.t, x.w) := by
    rw [hR.values, hx]
    rfl
  unfold Lists.Matches
  simp only [hv, Bool.and_eq_true, decide_eq_true_eq]

/-- The header after the atom `i` has been taken out. -/
theorem headerOf_remove {pre post : List Nat} {i : Nat} (hnd : (pre ++ i :: post).Nodup) :
    headerOf (pre ++ post) = ⟨(pre.length + post.length : Nat),
      if pre.getLast? = none then post.head? else (pre ++ i :: post).head?,
      if (pre ++ i :: post).getLast? = some i then pre.getLast? else
        (pre ++ i :: post).getLast?⟩ := by
  have hi : i ∉ post := (List.nodup_cons.mp (List.nodup_append.mp hnd).2.1).1
  unfold headerOf
  rw [List.length_append]
  congr 1
  · cases pre with
    | nil => rfl
    | cons a pre =>
        rw [if_neg (by simp)]
        rfl
  · cases post with
    | nil =>
        have hlast : (pre ++ [i]).getLast? = some i := List.getLast?_concat
        rw [if_pos hlast, List.append_nil]
    | cons b post =>
        have hlast : (pre ++ i :: b :: post).getLast? = (b :: post).getLast? := by
          rw [List.getLast?_append_of_ne_nil _ (List.cons_ne_nil _ _), List.getLast?_cons_cons]
        rw [hlast, List.getLast?_append_of_ne_nil _ (List.cons_ne_nil _ _), if_neg]
        intro he
        exact hi (List.mem_of_getLast? he)

theorem removeFound_spec (hR : Rep h A) {pre post : List Nat} {i : Nat}
    (hl : A.seq l = some (pre ++ i :: post)) (hmatch : A.Matches t w i = true) (n : Nat) :
    ∃ h', removeAtom l t w (n + 1) pre.getLast? (some i) h = .ok h' ∧
      Rep h' ((A.set l (pre ++ post)).drop [i]) := by
  have hnd := hR.nodup l _ hl
  have hmem : i ∈ pre ++ i :: post := List.mem_append_right _ List.mem_cons_self
  obtain ⟨⟨x, hx, hnext⟩, hpost⟩ := linked_suffix (hR.linked l _ hl)
  have hcond := (matches_eq hR hx).mp hmatch
  obtain ⟨hndpre, hndi, hdis⟩ := List.nodup_append.mp hnd
  obtain ⟨hipost, hndpost⟩ := List.nodup_cons.mp hndi
  have hipre : i ∉ pre := fun hi => hdis i hi i List.mem_cons_self rfl
  have hint := hR.small l _ hl
  have hlen : (pre ++ i :: post).length = pre.length + post.length + 1 := by
    rw [List.length_append, List.length_cons]
    omega
  rw [hlen] at hint
  obtain ⟨hpred, hint'⟩ := isInt_pred hint
  have hadd : intAdd (headerOf (pre ++ i :: post)).elements (-1) =
      .ok ((pre.length + post.length : Nat) : Int) := by
    have := intAdd_ok (a := ((pre.length + post.length + 1 : Nat) : Int)) (b := -1)
      (by rwa [hpred])
    rw [hpred] at this
    show intAdd ((pre ++ i :: post).length : Nat) (-1) = _
    rw [hlen]
    exact this
  have hndnew : (pre ++ post).Nodup :=
    List.nodup_append.mpr ⟨hndpre, hndpost, fun a ha b hb => hdis a ha b (List.mem_cons_of_mem _ hb)⟩
  have hinew : i ∉ pre ++ post := by
    rw [List.mem_append]
    exact not_or.mpr ⟨hipre, hipost⟩
  -- the heap in which the atom before has been relinked
  obtain ⟨h₁, hrun, hlists, hothers, hvals, hlinked⟩ : ∃ h₁ : Heap,
      unlink h pre.getLast? post.head? = .ok h₁ ∧
      h₁.lists = h.lists ∧ (∀ j, j ∉ pre → h₁.atoms.cells j = h.atoms.cells j) ∧
      (∀ j, (h₁.atoms.cells j).map Atom.value = (h.atoms.cells j).map Atom.value) ∧
      Linked h₁.atoms.cells (pre ++ post) := by
    rcases List.eq_nil_or_concat pre with rfl | ⟨pre, j, rfl⟩
    · exact ⟨h, rfl, rfl, fun _ _ => rfl, fun _ => rfl, hpost⟩
    · rw [List.concat_eq_append] at *
      have hj : j ∈ pre ++ [j] := List.mem_append_right _ List.mem_cons_self
      obtain ⟨y, hy⟩ := hR.live hl (List.mem_append_left _ hj)
      have hcells := h.atoms.cells_write (a := { y with next := post.head? }) hy
      refine ⟨h.setAtom j { y with next := post.head? }, ?_, rfl, fun k hk => ?_, fun k => ?_, ?_⟩
      · rw [List.getLast?_concat]
        simp only [unlink, atom_eq hy, ok_bind]
      · show (h.atoms.write j _).cells k = _
        rw [hcells]
        exact Function.update_of_ne (fun he : k = j => hk (he ▸ hj)) ..
      · show ((h.atoms.write j _).cells k).map _ = _
        rw [hcells]
        exact value_update hy _ k
      · show Linked (h.atoms.write j _).cells _
        rw [hcells, List.append_assoc]
        have hall := hR.linked l _ hl
        rw [List.append_assoc] at hall
        refine linked_append hndpre hall hpost fun hm => ?_
        exact hdis j hj j (List.mem_cons_of_mem _ hm) rfl
  have hx₁ : h₁.atoms.cells i = some x := (hothers i hipre).trans hx
  have hcells := h₁.atoms.cells_dealloc hx₁
  have hheader : h₁.header l = .ok (headerOf (pre ++ i :: post)) := by
    unfold Heap.header
    rw [hlists]
    exact hR.header hl
  refine ⟨(h₁.deallocAtom i).setHeader l (headerOf (pre ++ post)), ?_, ?_⟩
  · have hfirst : (headerOf (pre ++ i :: post)).first = (pre ++ i :: post).head? := rfl
    have hlast : (headerOf (pre ++ i :: post)).last = (pre ++ i :: post).getLast? := rfl
    simp only [removeAtom, atom_eq hx, ok_bind, if_pos hcond, hnext, hrun, hheader, hadd, hfirst,
      hlast, headerOf_remove hnd]
  · refine hR.change_to (l := l) (s := pre ++ post) ?_ ?_ hndnew ?_ ?_ rfl ?_
    · show (h₁.lists.write l _).cells = _
      rw [hlists]
      exact h.lists.cells_write (hR.lists_cell hl)
    · show Linked (h₁.atoms.dealloc i).cells _
      rw [hcells]
      refine linked_congr (fun j hj => ?_) hlinked
      exact Function.update_of_ne (fun he : j = i => hinew (he ▸ hj)) ..
    · rwa [List.length_append]
    · intro l' s' hne hl' j hj
      have hj' := hR.apart hl hne hl' hj
      refine ⟨fun hm => hj' ?_, ?_⟩
      · rcases List.mem_append.mp hm with hm | hm
        · exact List.mem_append_left _ hm
        · exact List.mem_append_right _ (List.mem_cons_of_mem _ hm)
      · show (h₁.atoms.dealloc i).cells j = _
        rw [hcells, Function.update_of_ne (fun he : j = i => hj' (he ▸ hmem)),
          hothers j fun hm => hj' (List.mem_append_left _ hm)]
    · intro j
      show (if j ∈ [i] then none else A.val j) = ((h₁.atoms.dealloc i).cells j).map _
      rw [hcells]
      by_cases hji : j = i
      · rw [if_pos (List.mem_singleton.mpr hji), hji, Function.update_self]
        rfl
      · rw [if_neg (fun hm => hji (List.mem_singleton.mp hm)), Function.update_of_ne hji, hvals j]
        exact hR.values j

/-- The list without the first atom that matches, and that atom. -/
def Lists.remove (A : Lists) (l : Nat) (s : List Nat) (t : WordType) (w : Word) : Lists :=
  match s.find? (A.Matches t w) with
  | none => A
  | some i => (A.set l (s.erase i)).drop [i]

theorem removeAtom_spec (hR : Rep h A) {pre post : List Nat} (hl : A.seq l = some (pre ++ post))
    (hpre : ∀ i ∈ pre, A.Matches t w i = false) {n : Nat} (hn : post.length < n) :
    ∃ h', removeAtom l t w n pre.getLast? post.head? h = .ok h' ∧
      Rep h' (A.remove l (pre ++ post) t w) := by
  induction post generalizing pre n with
  | nil =>
      cases n with
      | zero => exact absurd hn (Nat.not_lt_zero _)
      | succ n =>
          refine ⟨h, rfl, ?_⟩
          have hnone : (pre ++ []).find? (A.Matches t w) = none := by
            rw [List.append_nil, List.find?_eq_none]
            intro i hi
            rw [hpre i hi]
            exact Bool.false_ne_true
          unfold Lists.remove
          rw [hnone]
          exact hR
  | cons i post ih =>
      cases n with
      | zero => exact absurd hn (Nat.not_lt_zero _)
      | succ n =>
          obtain ⟨⟨x, hx, hnext⟩, _⟩ := linked_suffix (hR.linked l _ hl)
          cases hm : A.Matches t w i with
          | true =>
              obtain ⟨h', hrun, hR'⟩ := removeFound_spec hR hl hm n
              refine ⟨h', hrun, ?_⟩
              have hnd := hR.nodup l _ hl
              have hipre : i ∉ pre := fun hi =>
                (List.nodup_append.mp hnd).2.2 i hi i List.mem_cons_self rfl
              have hfind : (pre ++ i :: post).find? (A.Matches t w) = some i := by
                rw [List.find?_append, List.find?_eq_none.mpr, List.find?_cons, hm]
                · rfl
                · intro j hj
                  rw [hpre j hj]
                  exact Bool.false_ne_true
              unfold Lists.remove
              rw [hfind]
              show Rep h' ((A.set l ((pre ++ i :: post).erase i)).drop [i])
              rwa [List.erase_append_right _ hipre, List.erase_cons_head]
          | false =>
              have hcond : ¬ (wInt x.w = wInt w ∧ x.t = t) := by
                rw [← matches_eq hR hx, hm]
                exact Bool.false_ne_true
              have hl' : A.seq l = some ((pre ++ [i]) ++ post) := by
                rw [List.append_assoc]
                exact hl
              obtain ⟨h', hrun, hR'⟩ := ih hl' (fun j hj => by
                rcases List.mem_append.mp hj with hj | hj
                · exact hpre j hj
                · rw [List.mem_singleton.mp hj, hm]) (Nat.lt_of_succ_lt_succ hn)
              refine ⟨h', ?_, ?_⟩
              · rw [List.getLast?_concat] at hrun
                simp only [List.head?_cons, removeAtom, atom_eq hx, ok_bind, if_neg hcond, hnext,
                  hrun]
              · rwa [List.append_assoc] at hR'

theorem remove_spec {s : List Nat} (hR : Rep h A) (hl : A.seq l = some s) :
    ∃ h', pdpListRemove h l t w = .ok h' ∧ Rep h' (A.remove l s t w) := by
  have hl' : A.seq l = some ([] ++ s) := hl
  obtain ⟨h', hrun, hR'⟩ := removeAtom_spec (t := t) (w := w) hR hl'
    (fun i hi => absurd hi List.not_mem_nil) (hR.length_lt hl)
  refine ⟨h', ?_, hR'⟩
  have hfirst : (headerOf s).first = s.head? := rfl
  simp only [pdpListRemove, hR.header hl, ok_bind, hfirst]
  exact hrun

end Remove

/-! ## `pdp_list_new` -/

section New

variable {h : Heap} {A B : Lists} {l : Nat} {s : List Nat} {vs : List (WordType × Word)}

theorem newAtoms_nil (A : Lists) : NewAtoms A A [] [] where
  nodup := List.nodup_nil
  values := rfl
  unused := fun _ h => absurd h List.not_mem_nil
  others := fun _ _ => rfl

theorem NewAtoms.cons (hN : NewAtoms A B s vs) {i : Nat} (hi : B.val i = none)
    (v : WordType × Word) : NewAtoms A (B.put i v) (i :: s) (v :: vs) := by
  have his : i ∉ s := by
    intro hm
    have hval : B.val i ∈ s.map B.val := List.mem_map_of_mem hm
    rw [hN.values, hi] at hval
    obtain ⟨_, _, hv⟩ := List.mem_map.mp hval
    cases hv
  have hother : ∀ j ∈ s, (B.put i v).val j = B.val j := fun j hj =>
    Function.update_of_ne (fun he : j = i => his (he ▸ hj)) ..
  refine ⟨List.nodup_cons.mpr ⟨his, hN.nodup⟩, ?_, fun j hj => ?_, fun j hj => ?_⟩
  · rw [List.map_cons, List.map_cons, List.map_congr_left hother, hN.values]
    exact congrArg (· :: _) (Function.update_self ..)
  · rcases List.mem_cons.mp hj with rfl | hj
    · rw [← hN.others j his, hi]
    · exact hN.unused j hj
  · obtain ⟨hji, hjs⟩ := not_or.mp (List.mem_cons.not.mp hj)
    exact (Function.update_of_ne hji ..).trans (hN.others j hjs)

theorem NewAtoms.set (hN : NewAtoms A B s vs) (l : Nat) (s' : List Nat) :
    NewAtoms A (B.set l s') s vs := ⟨hN.nodup, hN.values, hN.unused, hN.others⟩

theorem set_set (A : Lists) (l : Nat) (s s' : List Nat) : (A.set l s).set l s' = A.set l s' := by
  unfold Lists.set
  simp only [Function.update_idem]

theorem Rep.alloc_list (hR : Rep h A) (hlinked : Linked h.atoms.cells s) (hnd : s.Nodup)
    (hint : IsInt s.length) (hfree : ∀ l' s', A.seq l' = some s' → ∀ i ∈ s', i ∉ s) :
    Rep { h with lists := h.lists.alloc (headerOf s) } (A.set h.lists.next s) :=
  hR.change_to (l := h.lists.next) (s := s) rfl hlinked hnd hint
    (fun l' s' _ hl' i hi => ⟨hfree l' s' hl' i hi, rfl⟩) rfl hR.values

theorem pushUndef_spec (hR : Rep h A) {b : Nat} (hl : A.seq l = some (b :: s))
    (hint : IsInt ((b :: s).length + 1)) :
    ∃ h', pushUndef h l = .ok h' ∧
      Rep h' ((A.put h.atoms.next (.undef, 0)).set l (h.atoms.next :: b :: s)) := by
  have hR' := hR.alloc_atom (some b) 0 .undef
  have hdet := hR.detached_next (.undef, 0)
  have hadd : intAdd (headerOf (b :: s)).elements 1 = .ok ((b :: s).length + 1) := intAdd_ok hint
  have hsome : (b :: s).getLast? ≠ none := by simp
  refine ⟨({ h with atoms := h.atoms.alloc ⟨some b, 0, .undef⟩ } : Heap).setHeader l
    (headerOf (h.atoms.next :: b :: s)), ?_, ?_⟩
  · simp only [pushUndef, hR.header hl, ok_bind, hadd, headerOf_cons h.atoms.next, if_neg hsome]
    rfl
  · refine hR'.change_to (l := l) (s := h.atoms.next :: b :: s) ?_
      ⟨⟨_, Function.update_self .., rfl⟩, hR'.linked l _ hl⟩ ?_ ?_ ?_
      rfl hR'.values
    · exact h.lists.cells_write (hR.lists_cell hl)
    · exact List.nodup_cons.mpr ⟨hdet.2 l _ hl, hR.nodup l _ hl⟩
    · rwa [List.length_cons, Int.natCast_succ]
    · intro l' s' hne hl' i hi
      exact ⟨List.not_mem_cons_of_ne_of_not_mem (fun he => hdet.2 l' s' hl' (he ▸ hi))
        (hR.apart hl hne hl' hi), rfl⟩

theorem pushUndefs_spec {n : Nat} (hR : Rep h (B.set l s)) (hs : s ≠ [])
    (hN : NewAtoms A B s vs) (hint : IsInt ((s.length + n : Nat) : Int)) :
    ∃ h' B' s', pushUndefs l n h = .ok h' ∧ Rep h' (B'.set l s') ∧ B'.seq = B.seq ∧
      s'.length = s.length + n ∧ NewAtoms A B' s' (List.replicate n (.undef, 0) ++ vs) := by
  induction n generalizing h B s vs with
  | zero => exact ⟨h, B, s, rfl, hR, rfl, rfl, hN⟩
  | succ n ih =>
      obtain ⟨b, s, rfl⟩ := List.exists_cons_of_ne_nil hs
      have hint₁ : IsInt ((b :: s).length + 1) := by
        unfold IsInt at *
        omega
      obtain ⟨h₁, hrun, hR₁⟩ := pushUndef_spec hR (B.seq_set_self l _) hint₁
      have hnext : B.val h.atoms.next = none := hR.next_unused
      have hR₁' : Rep h₁ ((B.put h.atoms.next (.undef, 0)).set l (h.atoms.next :: b :: s)) := by
        rwa [← set_set _ l (b :: s)]
      obtain ⟨h', B', s', hrun', hR', hseq, hlen, hN'⟩ :=
        ih hR₁' (List.cons_ne_nil _ _) (hN.cons hnext (.undef, 0)) (by
          rw [List.length_cons, List.length_cons] at *
          rwa [show s.length + 1 + 1 + n = s.length + 1 + (n + 1) by omega])
      refine ⟨h', B', s', ?_, hR', hseq, ?_, ?_⟩
      · simp only [pushUndefs, hrun, ok_bind, hrun']
      · rw [hlen, List.length_cons]
        omega
      · rwa [List.replicate_succ', List.append_assoc]

theorem new_spec (hR : Rep h A) {n : Nat} (hint : IsInt n) :
    ∃ h' B s, pdpListNew h n = .ok (h.lists.next, h') ∧ Rep h' (B.set h.lists.next s) ∧
      B.seq = A.seq ∧ s.length = n ∧ NewAtoms A B s (List.replicate n (.undef, 0)) := by
  have hpos : ¬ (n : Int) < 0 := by omega
  cases n with
  | zero =>
      have hnew : pdpListNew h ((0 : Nat) : Int) =
          .ok (h.lists.next, { h with lists := h.lists.alloc (headerOf []) }) := rfl
      exact ⟨_, A, [], hnew, hR.alloc_list (s := []) trivial List.nodup_nil hint
        (fun _ _ _ _ _ => List.not_mem_nil), rfl, rfl, newAtoms_nil A⟩
  | succ n =>
      have hR₁ := hR.alloc_atom none 0 .undef
      have hdet := hR.detached_next (.undef, 0)
      have hone : IsInt [h.atoms.next].length := (by decide : IsInt 1)
      have hR₂ := hR₁.alloc_list (s := [h.atoms.next]) ⟨⟨_, Function.update_self .., rfl⟩, trivial⟩
        (List.nodup_singleton _) hone (fun l' s' hl' i hi hm =>
          hdet.2 l' s' hl' (List.mem_singleton.mp hm ▸ hi))
      have hN : NewAtoms A (A.put h.atoms.next (.undef, 0)) [h.atoms.next] [(.undef, 0)] :=
        (newAtoms_nil A).cons hR.next_unused _
      obtain ⟨h', B, s, hrun, hR', hseq, hlen, hN'⟩ :=
        pushUndefs_spec (n := n) hR₂ (List.cons_ne_nil _ _) hN (by
          rwa [List.length_singleton, Nat.add_comm])
      refine ⟨h', B, s, ?_, hR', hseq, ?_, ?_⟩
      · have hlist : headerOf [h.atoms.next] = ⟨1, some h.atoms.next, some h.atoms.next⟩ := rfl
        rw [hlist] at hrun
        have htoNat : ((n + 1 : Nat) : Int).toNat = n + 1 := rfl
        unfold pdpListNew
        simp only [if_neg hpos, htoNat, hrun, ok_bind]
      · rw [hlen, List.length_singleton, Nat.add_comm]
      · rwa [List.replicate_succ']

end New

/-! ## `pdp_list_copy_reverse` and `pdp_list_copy` -/

section Copy

variable {h : Heap} {A B : Lists} {l : Nat} {s : List Nat} {vs : List (WordType × Word)}

/-- `s` has the values `vs`. -/
def Lists.Holds (A : Lists) (s : List Nat) (vs : List (WordType × Word)) : Prop :=
  s.map A.val = vs.map some

theorem Rep.holds (hR : Rep h A) (hl : A.seq l = some s) : ∃ vs, A.Holds s vs := by
  have hall : ∀ i ∈ s, ∃ v, A.val i = some v := fun i hi =>
    Option.ne_none_iff_exists'.mp (hR.val_ne_none hl hi)
  clear hl
  induction s with
  | nil => exact ⟨[], rfl⟩
  | cons i s ih =>
      obtain ⟨v, hv⟩ := hall i List.mem_cons_self
      obtain ⟨vs, hvs⟩ := ih fun j hj => hall j (List.mem_cons_of_mem _ hj)
      refine ⟨v :: vs, ?_⟩
      unfold Lists.Holds at hvs ⊢
      rw [List.map_cons, List.map_cons, hv, hvs]

theorem Lists.Holds.length (hA : A.Holds s vs) : s.length = vs.length := by
  have := congrArg List.length hA
  rwa [List.length_map, List.length_map] at this

theorem NewAtoms.val {s' : List Nat} {vs' : List (WordType × Word)} (hN : NewAtoms A B s' vs')
    {i : Nat} {v : WordType × Word} (hi : A.val i = some v) : B.val i = some v := by
  rw [hN.others i fun hm => ?_, hi]
  rw [hN.unused i hm] at hi
  cases hi

theorem Rep.read (hR : Rep h A) {pre post : List Nat} {i : Nat}
    (hl : A.seq l = some (pre ++ i :: post)) {v : WordType × Word} (hv : A.val i = some v) :
    ∃ x, h.atoms.cells i = some x ∧ x.next = post.head? ∧ x.t = v.1 ∧ x.w = v.2 := by
  obtain ⟨⟨x, hx, hnext⟩, _⟩ := linked_suffix (hR.linked l _ hl)
  refine ⟨x, hx, hnext, ?_⟩
  rw [hR.values, hx] at hv
  cases hv
  exact ⟨rfl, rfl⟩

theorem addAll_spec {m : Nat} (hlm : l ≠ m) {pre post s' : List Nat} {n : Nat}
    {vs' : List (WordType × Word)} (hR : Rep h (B.set m s')) (hl : B.seq l = some (pre ++ post))
    (hN : NewAtoms A B s' vs') (hvs : A.Holds post vs) (hn : post.length < n)
    (hint : IsInt ((s'.length + post.length : Nat) : Int)) :
    ∃ h' B' s'', addAll m n post.head? h = .ok h' ∧ Rep h' (B'.set m s'') ∧ B'.seq = B.seq ∧
      NewAtoms A B' s'' (vs.reverse ++ vs') := by
  induction post generalizing pre h B s' n vs vs' with
  | nil =>
      cases n with
      | zero => exact absurd hn (Nat.not_lt_zero _)
      | succ n =>
          obtain rfl : vs = [] := List.map_eq_nil_iff.mp hvs.symm
          exact ⟨h, B, s', rfl, hR, rfl, hN⟩
  | cons i post ih =>
      cases n with
      | zero => exact absurd hn (Nat.not_lt_zero _)
      | succ n =>
          cases vs with
          | nil => cases hvs
          | cons v vs =>
              obtain ⟨hv, hvs⟩ := List.cons.inj hvs
              have hvB : (B.set m s').val i = some v := hN.val hv
              have hl' : (B.set m s').seq l = some (pre ++ i :: post) :=
                (B.seq_set_of_ne hlm s').trans hl
              obtain ⟨x, hx, hnext, ht, hw⟩ := hR.read hl' hvB
              have hint₁ : IsInt (s'.length + 1) := by
                rw [List.length_cons] at hint
                unfold IsInt at *
                omega
              obtain ⟨h₁, hrun, hR₁⟩ := add_spec hR (B.seq_set_self m s') hint₁ v.1 v.2
              have hR₁' : Rep h₁ ((B.put h.atoms.next v).set m (h.atoms.next :: s')) := by
                rwa [← set_set _ m s']
              have hl₁ : (B.put h.atoms.next v).seq l = some ((pre ++ [i]) ++ post) := by
                rw [List.append_assoc]
                exact hl
              obtain ⟨h', B', s'', hrun', hR', hseq, hN'⟩ := ih hR₁' hl₁
                (hN.cons hR.next_unused v) hvs (Nat.lt_of_succ_lt_succ hn) (by
                  rw [List.length_cons] at hint ⊢
                  rwa [Nat.add_right_comm, Nat.add_assoc])
              refine ⟨h', B', s'', ?_, hR', hseq, ?_⟩
              · simp only [List.head?_cons, addAll, atom_eq hx, ok_bind, ht, hw, hrun, hnext, hrun']
              · rwa [List.reverse_cons, List.append_assoc]

/-- The new list and what it has, as one statement. -/
theorem NewAtoms.adds {m : Nat} (hN : NewAtoms A B s vs) (hm : A.seq m = none)
    (hseq : B.seq = A.seq) : A.Adds m vs (B.set m s) :=
  ⟨hm, s, by rw [← hseq]; rfl, hN.set m s⟩

theorem copyReverse_spec (hR : Rep h A) (hl : A.seq l = some s) (hvs : A.Holds s vs) :
    ∃ m h' C, pdpListCopyReverse h l = .ok (m, h') ∧ Rep h' C ∧ A.Adds m vs.reverse C := by
  obtain ⟨h₁, B, s₁, hrun, hR₁, hseq, hlen, hN⟩ := new_spec hR (n := 0) (by decide)
  obtain rfl : s₁ = [] := List.eq_nil_of_length_eq_zero hlen
  have hlm : l ≠ h.lists.next := by
    rintro rfl
    rw [hR.next_list] at hl
    cases hl
  have hlB : B.seq l = some ([] ++ s) := (congrFun hseq l).trans hl
  have hl₁ : (B.set h.lists.next []).seq l = some s := (B.seq_set_of_ne hlm []).trans hlB
  obtain ⟨h', B', s'', hrun', hR', hseq', hN'⟩ := addAll_spec hlm hR₁ hlB hN hvs (hR.length_lt hl)
    (by rw [List.length_nil, Nat.zero_add]; exact hR.small l s hl)
  refine ⟨h.lists.next, h', _, ?_, hR', ?_⟩
  · have hfirst : (headerOf s).first = s.head? := rfl
    have hnew : pdpListNew h 0 = .ok (h.lists.next, h₁) := hrun
    simp only [pdpListCopyReverse, hnew, ok_bind, hR₁.header hl₁, hfirst, hrun']
  · rw [List.replicate_zero, List.append_nil] at hN'
    exact hN'.adds hR.next_list (hseq'.trans hseq)

theorem Rep.set_value (hR : Rep h A) {i : Nat} {x : Atom} (hx : h.atoms.cells i = some x)
    (v : WordType × Word) : Rep (h.setAtom i ⟨x.next, v.2, v.1⟩) (A.put i v) := by
  have hcells := h.atoms.cells_write (a := ⟨x.next, v.2, v.1⟩) hx
  refine ⟨hR.headers, fun j => ?_, fun l s hl => ?_, hR.nodup, hR.small, hR.disjoint⟩
  · show Function.update A.val i (some v) j = Option.map _ ((h.atoms.write i _).cells j)
    rw [hcells]
    by_cases hj : j = i
    · rw [hj, Function.update_self, Function.update_self]
      rfl
    · rw [Function.update_of_ne hj, Function.update_of_ne hj]
      exact hR.values j
  · have hs := hR.linked l s hl
    show Linked (h.atoms.write i _).cells s
    rw [hcells]
    clear hl
    induction s with
    | nil => trivial
    | cons j s ih =>
        obtain ⟨⟨y, hy, hn⟩, hs⟩ := hs
        refine ⟨?_, ih hs⟩
        by_cases hj : j = i
        · subst hj
          obtain rfl : x = y := Option.some.inj (hx.symm.trans hy)
          exact ⟨_, Function.update_self .., hn⟩
        · exact ⟨y, (Function.update_of_ne hj ..).trans hy, hn⟩

theorem NewAtoms.put {pre post : List Nat} {i : Nat} {us ws : List (WordType × Word)}
    {u : WordType × Word} (hN : NewAtoms A B (pre ++ i :: post) (us ++ u :: ws))
    (hlen : pre.length = us.length) (v : WordType × Word) :
    NewAtoms A (B.put i v) ((pre ++ [i]) ++ post) ((us ++ [v]) ++ ws) := by
  have hvals := hN.values
  rw [List.map_append, List.map_append, List.map_cons, List.map_cons] at hvals
  obtain ⟨hpre, hpost⟩ := List.append_inj hvals (by rwa [List.length_map, List.length_map])
  obtain ⟨_, hpost⟩ := List.cons.inj hpost
  obtain ⟨_, hndi, hdis⟩ := List.nodup_append.mp hN.nodup
  have hipost := (List.nodup_cons.mp hndi).1
  have hput : ∀ j, j ≠ i → (B.put i v).val j = B.val j := fun j hj =>
    Function.update_of_ne hj ..
  have hprev : pre.map (B.put i v).val = us.map some := by
    rw [← hpre]
    exact List.map_congr_left fun j hj => hput j fun he => hdis j hj i List.mem_cons_self he
  have hpostv : post.map (B.put i v).val = ws.map some := by
    rw [← hpost]
    exact List.map_congr_left fun j hj => hput j fun he => hipost (he ▸ hj)
  have hiv : (B.put i v).val i = some v := Function.update_self ..
  refine ⟨?_, ?_, fun j hj => ?_, fun j hj => ?_⟩
  · rw [List.append_assoc]
    exact hN.nodup
  · simp only [List.map_append, List.map_cons, List.map_nil, hprev, hpostv, hiv]
  · rw [List.append_assoc] at hj
    exact hN.unused j hj
  · rw [List.append_assoc] at hj
    rw [hput j fun he => hj (he ▸ List.mem_append_right _ List.mem_cons_self)]
    exact hN.others j hj

theorem copyWords_spec {m : Nat} (hlm : l ≠ m) {pre post pre' post' : List Nat} {n : Nat}
    {us ws : List (WordType × Word)} (hR : Rep h (B.set m (pre' ++ post')))
    (hl : B.seq l = some (pre ++ post)) (hN : NewAtoms A B (pre' ++ post') (us ++ ws))
    (hus : pre'.length = us.length) (hvs : A.Holds post vs) (hn : post.length < n)
    (hlen : post'.length = post.length) :
    ∃ h' B', copyWords n post.head? post'.head? h = .ok h' ∧ Rep h' (B'.set m (pre' ++ post')) ∧
      B'.seq = B.seq ∧ NewAtoms A B' (pre' ++ post') (us ++ vs) := by
  induction post generalizing pre pre' post' h B n vs us ws with
  | nil =>
      cases n with
      | zero => exact absurd hn (Nat.not_lt_zero _)
      | succ n =>
          obtain rfl : vs = [] := List.map_eq_nil_iff.mp hvs.symm
          obtain rfl : post' = [] := List.eq_nil_of_length_eq_zero hlen
          have hws : ws = [] := by
            have := congrArg List.length hN.values
            simp only [List.length_map, List.length_append, List.length_nil] at this
            exact List.eq_nil_of_length_eq_zero (by omega)
          subst hws
          exact ⟨h, B, rfl, hR, rfl, hN⟩
  | cons i post ih =>
      cases n with
      | zero => exact absurd hn (Nat.not_lt_zero _)
      | succ n =>
          cases vs with
          | nil => cases hvs
          | cons v vs =>
              cases post' with
              | nil => cases hlen
              | cons j post' =>
                  cases ws with
                  | nil =>
                      have := congrArg List.length hN.values
                      simp only [List.length_map, List.length_append, List.length_cons,
                        List.length_nil] at this
                      omega
                  | cons w ws =>
                      obtain ⟨hv, hvs⟩ := List.cons.inj hvs
                      have hvB : (B.set m (pre' ++ j :: post')).val i = some v := hN.val hv
                      have hl' : (B.set m (pre' ++ j :: post')).seq l = some (pre ++ i :: post) :=
                        (B.seq_set_of_ne hlm _).trans hl
                      obtain ⟨x, hx, hnext, ht, hw⟩ := hR.read hl' hvB
                      obtain ⟨⟨y, hy, hnext'⟩, _⟩ :=
                        linked_suffix (hR.linked m _ (B.seq_set_self m _))
                      have hR₁ := hR.set_value hy v
                      have hR₁' : Rep (h.setAtom j ⟨y.next, v.2, v.1⟩)
                          ((B.put j v).set m ((pre' ++ [j]) ++ post')) := by
                        rw [List.append_assoc]
                        exact hR₁
                      have hl₁ : (B.put j v).seq l = some ((pre ++ [i]) ++ post) := by
                        rw [List.append_assoc]
                        exact hl
                      have hus' : (pre' ++ [j]).length = (us ++ [v]).length := by
                        rw [List.length_append, List.length_append, hus]
                        rfl
                      obtain ⟨h', B', hrun', hR', hseq, hN'⟩ := ih hR₁' hl₁ (hN.put hus v) hus' hvs
                        (Nat.lt_of_succ_lt_succ hn) (Nat.succ.inj hlen)
                      rw [List.append_assoc] at hR'
                      rw [List.append_assoc, List.append_assoc] at hN'
                      refine ⟨h', B', ?_, hR', hseq, hN'⟩
                      simp only [List.head?_cons, copyWords, atom_eq hx, atom_eq hy, ok_bind, ht,
                        hw, hnext]
                      rw [hnext'] at hrun' ⊢
                      exact hrun'

theorem copy_spec (hR : Rep h A) (hl : A.seq l = some s) (hvs : A.Holds s vs) :
    ∃ m h' B s', pdpListCopy h l = .ok (m, h') ∧ Rep h' (B.set m s') ∧ A.seq m = none ∧
      B.seq = A.seq ∧ NewAtoms A B s' vs := by
  obtain ⟨h₁, B, s₁, hrun, hR₁, hseq, hlen, hN⟩ := new_spec hR (n := s.length) (hR.small l s hl)
  have hlm : l ≠ h.lists.next := by
    rintro rfl
    rw [hR.next_list] at hl
    cases hl
  have hlB : B.seq l = some ([] ++ s) := (congrFun hseq l).trans hl
  have hR₂ : Rep h₁ (B.set h.lists.next ([] ++ s₁)) := hR₁
  have hN₂ : NewAtoms A B ([] ++ s₁) ([] ++ List.replicate s.length (.undef, 0)) := hN
  obtain ⟨h', B', hrun', hR', hseq', hN'⟩ :=
    copyWords_spec hlm hR₂ hlB hN₂ rfl hvs (hR.length_lt hl) hlen
  refine ⟨h.lists.next, h', B', s₁, ?_, hR', hR.next_list, hseq'.trans hseq, hN'⟩
  have hfirst : (headerOf s).first = s.head? := rfl
  have hfirst₁ : (headerOf s₁).first = s₁.head? := rfl
  have hnew : pdpListNew h (headerOf s).elements = .ok (h.lists.next, h₁) := hrun
  simp only [pdpListCopy, hR.header hl, ok_bind, hnew, hR₁.header (B.seq_set_self _ s₁), hfirst,
    hfirst₁, hrun']

end Copy

/-! ## `pdp_list_join` and `pdp_list_cat` -/

section Join

variable {h : Heap} {A : Lists} {l m : Nat} {s s' : List Nat}

theorem headerOf_join {s'' : List Nat} {last : Nat} (hs : s = s'' ++ [last]) (hs' : s' ≠ []) :
    headerOf (s ++ s') = ⟨(s.length + s'.length : Nat), s.head?, s'.getLast?⟩ := by
  unfold headerOf
  rw [List.length_append, List.getLast?_append_of_ne_nil _ hs', hs, List.append_assoc]
  cases s'' with
  | nil => rfl
  | cons a s'' => rfl

theorem join_spec (hR : Rep h A) (hl : A.seq l = some s) (hm : A.seq m = some s') (hne : l ≠ m)
    (hint : IsInt ((s.length + s'.length : Nat) : Int)) :
    ∃ h', pdpListJoin h l m = .ok h' ∧
      Rep h' ({ A with seq := Function.update A.seq m none }.set l (s ++ s')) := by
  have hdis : s.Disjoint s' := hR.disjoint l m s s' hne hl hm
  have hR' := hR.dealloc_list hm
  have hl' : Function.update A.seq m none l = some s := (Function.update_of_ne hne ..).trans hl
  have hm' : Function.update A.seq m none m = none := Function.update_self ..
  have helems : (headerOf s').elements = s'.length := rfl
  have hcell := hR.lists_cell hl
  have hcellm := hR.lists_cell hm
  -- the order in which the two headers are written does not matter
  have hheaders : ∀ hd : Header, ((h.setHeader l hd).deallocList m).lists.cells =
      Function.update (h.deallocList m).lists.cells l (some hd) := by
    intro hd
    have hw := h.lists.cells_write (a := hd) hcell
    have hm₁ : (h.lists.write l hd).cells m = some (headerOf s') := by
      rw [hw, Function.update_of_ne hne.symm]
      exact hcellm
    show ((h.lists.write l hd).dealloc m).cells = Function.update (h.lists.dealloc m).cells l _
    rw [Arena.cells_dealloc _ hm₁, hw, h.lists.cells_dealloc hcellm, Function.update_comm hne]
  have hother : ∀ l' t, l' ≠ l → Function.update A.seq m none l' = some t → ∀ i ∈ t,
      i ∉ s ∧ i ∉ s' := by
    intro l' t hne' ht i hi
    have hlm : l' ≠ m := by
      rintro rfl
      rw [hm'] at ht
      cases ht
    rw [Function.update_of_ne hlm] at ht
    exact ⟨hR.apart hl hne' ht hi, hR.apart hm hlm ht hi⟩
  have hnotin : ∀ l' t, l' ≠ l → Function.update A.seq m none l' = some t → ∀ i ∈ t,
      i ∉ s ++ s' := by
    intro l' t hne' ht i hi
    rw [List.mem_append]
    exact not_or.mpr (hother l' t hne' ht i hi)
  have hnd : (s ++ s').Nodup := List.nodup_append.mpr
    ⟨hR.nodup l s hl, hR.nodup m s' hm, fun a ha b hb he => hdis ha (he ▸ hb)⟩
  have hlen : IsInt (s ++ s').length := by rwa [List.length_append]
  cases s' with
  | nil =>
      rw [List.append_nil] at *
      refine ⟨h.deallocList m, ?_, ?_⟩
      · have hzero : ¬ (headerOf []).elements ≠ 0 := fun hz => hz rfl
        simp only [pdpListJoin, hR.header hm, ok_bind, if_neg hzero]
      · rw [Rep.set_self (A := { A with seq := Function.update A.seq m none }) hl']
        exact hR'
  | cons b s' =>
      have hnz : (headerOf (b :: s')).elements ≠ 0 := by
        rw [helems, List.length_cons]
        omega
      have hadd : intAdd (headerOf s).elements (headerOf (b :: s')).elements =
          .ok ((s.length + (b :: s').length : Nat) : Int) := intAdd_ok hint
      rcases List.eq_nil_or_concat s with rfl | ⟨s, last, rfl⟩
      · refine ⟨(h.setHeader l (headerOf (b :: s'))).deallocList m, ?_, ?_⟩
        · have hlast : (headerOf []).last = none := rfl
          have hzero : (([] : List Nat).length + (b :: s').length : Nat) = (b :: s').length :=
            Nat.zero_add _
          simp only [pdpListJoin, hR.header hm, hR.header hl, ok_bind, if_pos hnz, hadd, hlast,
            hzero]
          rfl
        · exact hR'.change_to (l := l) (s := b :: s') (hheaders _) (hR.linked m _ hm) hnd hlen
            (fun l' t hne' ht i hi => ⟨hnotin l' t hne' ht i hi, rfl⟩) rfl hR'.values
      · rw [List.concat_eq_append] at *
        have hmem : last ∈ s ++ [last] := List.mem_append_right _ List.mem_cons_self
        obtain ⟨y, hy⟩ := hR.live hl hmem
        have hcells := h.atoms.cells_write (a := { y with next := some b }) hy
        have hlast : (headerOf (s ++ [last])).last = some last := List.getLast?_concat
        have hfirst : (headerOf (b :: s')).first = some b := rfl
        refine ⟨((h.setAtom last { y with next := some b }).setHeader l
          (headerOf (s ++ [last] ++ b :: s'))).deallocList m, ?_, ?_⟩
        · simp only [pdpListJoin, hR.header hm, hR.header hl, ok_bind, if_pos hnz, hadd, hlast,
            hfirst, atom_eq hy, headerOf_join rfl (List.cons_ne_nil b s')]
          rfl
        · refine hR'.change_to (l := l) (s := s ++ [last] ++ b :: s') (hheaders _) ?_ hnd hlen ?_
            rfl ?_
          · show Linked (h.atoms.write last _).cells _
            rw [hcells, List.append_assoc]
            exact linked_append (hR.nodup l _ hl) (hR.linked l _ hl) (hR.linked m _ hm)
              (hdis hmem)
          · intro l' t hne' ht i hi
            refine ⟨hnotin l' t hne' ht i hi, ?_⟩
            show (h.atoms.write last _).cells i = h.atoms.cells i
            rw [hcells]
            refine Function.update_of_ne (fun he : i = last => ?_) ..
            exact (hother l' t hne' ht i hi).1 (he ▸ hmem)
          · intro i
            show A.val i = Option.map _ ((h.atoms.write last _).cells i)
            rw [hcells]
            exact (hR.values i).trans (value_update hy _ i).symm

theorem cat_spec {vs : List (WordType × Word)} (hR : Rep h A) (hl : A.seq l = some s)
    (hm : A.seq m = some s') (hvs : A.Holds s' vs)
    (hint : IsInt ((s.length + s'.length : Nat) : Int)) :
    ∃ h' B s'', pdpListCat h l m = .ok h' ∧ Rep h' (B.set l (s ++ s'')) ∧ B.seq = A.seq ∧
      NewAtoms A B s'' vs := by
  obtain ⟨k, h₁, B, s'', hrun, hR₁, hk, hseq, hN⟩ := copy_spec hR hm hvs
  have hlk : l ≠ k := by
    rintro rfl
    rw [hk] at hl
    cases hl
  have hlB : (B.set k s'').seq l = some s := (B.seq_set_of_ne hlk s'').trans
    ((congrFun hseq l).trans hl)
  have hlen : s''.length = s'.length := by
    rw [hvs.length]
    have := congrArg List.length hN.values
    rwa [List.length_map, List.length_map] at this
  obtain ⟨h', hrun', hR'⟩ := join_spec hR₁ hlB (B.seq_set_self k s'') hlk (by rwa [hlen])
  refine ⟨h', B, s'', ?_, ?_, hseq, hN⟩
  · simp only [pdpListCat, hrun, ok_bind, hrun']
  · have hback : ({ B.set k s'' with seq := Function.update (B.set k s'').seq k none } : Lists) =
        B := by
      have hBk : B.seq k = none := (congrFun hseq k).trans hk
      unfold Lists.set
      rw [Function.update_idem, ← hBk, Function.update_eq_self]
    rwa [hback] at hR'

end Join

/-! ## `pdp_list_reverse` -/

section Reverse

variable {h : Heap} {A : Lists} {l : Nat} {s s' : List Nat}

/-- The atoms of `s`, in no list any more, are put in front of the list. -/
theorem reverseAtoms_spec {n : Nat} (hR : Rep h (A.set l s')) (hs : Linked h.atoms.cells s)
    (hnd : s.Nodup) (hdet : ∀ i ∈ s, (A.set l s').Detached i)
    (hint : IsInt ((s'.length + s.length : Nat) : Int)) (hn : s.length < n) :
    ∃ h', reverseAtoms l n (headerOf s) h = .ok h' ∧ Rep h' (A.set l (s.reverse ++ s')) := by
  induction s generalizing n h s' with
  | nil =>
      cases n with
      | zero => exact absurd hn (Nat.not_lt_zero _)
      | succ n =>
          refine ⟨h, ?_, hR⟩
          simp only [reverseAtoms, popAtom_nil, ok_bind]
  | cons a s ih =>
      cases n with
      | zero => exact absurd hn (Nat.not_lt_zero _)
      | succ n =>
          obtain ⟨⟨x, hx, hnext⟩, hs⟩ := hs
          obtain ⟨ha, hnd⟩ := List.nodup_cons.mp hnd
          have hda := hdet a List.mem_cons_self
          have hlen : IsInt (a :: s).length := by
            rw [List.length_cons] at *
            unfold IsInt at *
            omega
          have hR₁ := hR.relink hda hx none
          have hint₁ : IsInt (s'.length + 1) := by
            rw [List.length_cons] at hint
            unfold IsInt at *
            omega
          obtain ⟨h₂, hrun, hR₂, hframe⟩ := addAtom_spec hR₁ (A.seq_set_self l s') hda hint₁
          rw [set_set] at hR₂
          have hs₂ : Linked h₂.atoms.cells s := by
            refine linked_congr (fun i hi => ?_) hs
            have hia : i ≠ a := fun he => ha (he ▸ hi)
            have hcells := h.atoms.cells_write (a := { x with next := none }) hx
            rw [hframe i hia]
            exact (congrFun hcells i).trans (Function.update_of_ne hia ..)
          have hdet₂ : ∀ i ∈ s, (A.set l (a :: s')).Detached i := by
            intro i hi
            have hdi := hdet i (List.mem_cons_of_mem _ hi)
            refine ⟨hdi.1, fun l' t hl' hm => ?_⟩
            by_cases hll : l' = l
            · subst hll
              rw [A.seq_set_self] at hl'
              cases hl'
              rcases List.mem_cons.mp hm with rfl | hm
              · exact ha hi
              · exact hdi.2 l' s' (A.seq_set_self l' s') hm
            · rw [A.seq_set_of_ne hll] at hl'
              exact hdi.2 l' t ((A.seq_set_of_ne hll s').trans hl') hm
          obtain ⟨h', hrun', hR'⟩ := ih hR₂ hs₂ hnd hdet₂ (by
            rw [List.length_cons] at hint ⊢
            rwa [Nat.add_right_comm, Nat.add_assoc]) (Nat.lt_of_succ_lt_succ hn)
          refine ⟨h', ?_, ?_⟩
          · simp only [reverseAtoms, popAtom_cons hx hnext hlen, ok_bind, hrun, hrun']
          · rwa [List.reverse_cons, List.append_assoc]

theorem reverse_spec (hR : Rep h A) (hl : A.seq l = some s) :
    ∃ h', pdpListReverse h l = .ok h' ∧ Rep h' (A.set l s.reverse) := by
  have hR₁ : Rep (h.setHeader l (headerOf [])) (A.set l []) := by
    refine hR.change_to (l := l) (s := []) ?_ trivial List.nodup_nil ⟨by decide, by decide⟩ ?_ rfl
      hR.values
    · exact h.lists.cells_write (hR.lists_cell hl)
    · exact fun l' s' _ _ i _ => ⟨List.not_mem_nil, rfl⟩
  have hdet : ∀ i ∈ s, (A.set l []).Detached i := by
    intro i hi
    refine ⟨hR.val_ne_none hl hi, fun l' t hl' hm => ?_⟩
    by_cases hll : l' = l
    · subst hll
      rw [A.seq_set_self] at hl'
      cases hl'
      cases hm
    · rw [A.seq_set_of_ne hll] at hl'
      exact hR.apart hl hll hl' hm hi
  obtain ⟨h', hrun, hR'⟩ := reverseAtoms_spec hR₁ (hR.linked l s hl) (hR.nodup l s hl) hdet (by
    rw [List.length_nil, Nat.zero_add]
    exact hR.small l s hl) (hR.length_lt hl)
  refine ⟨h', ?_, ?_⟩
  · simp only [pdpListReverse, hR.header hl, ok_bind]
    exact hrun
  · rwa [List.append_nil] at hR'

end Reverse

end PureDataPacket
