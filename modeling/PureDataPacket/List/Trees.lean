/-
# `PureDataPacket.List.Trees` — lists in lists, as they lie in memory

An atom may have a list in its word.  A tree is copied, gone through and given
back by functions that call themselves for such an atom; here the call is an
argument of the loop.  `n` is how deep the calls may go.
-/
import PureDataPacket.List.Loops
import PureDataPacket.Tree.Cells

namespace PureDataPacket

/-- `w_list`: null, or the cell of a list. -/
def wList (w : Word) : Option Nat := if w = 0 then none else some (w - 1)

/-- The word that points to a list. -/
def listWord (l : Nat) : Word := l + 1

@[simp] theorem wList_listWord (l : Nat) : wList (listWord l) = some l := rfl

namespace Heap

/-! ## The functions -/

/-- The loop of `pdp_tree_copy`. -/
def copyAtoms (copy : Option Nat → Heap → Except ListFault (Nat × Heap)) :
    Nat → Option Nat → Option Nat → Heap → Except ListFault Heap
  | 0, _, _, _ => .error .endless
  | _ + 1, none, _, h => .ok h
  | n + 1, some i, dst, h => do
      let (_, x) ← h.atom (some i)
      let (j, y) ← h.atom dst
      if x.t = .list then do
        let (newlist, h) ← copy (wList x.w) (h.setAtom j { y with t := x.t })
        let (_, y) ← h.atom (some j)
        let h := h.setAtom j { y with w := listWord newlist }
        let (_, x) ← h.atom (some i)
        copyAtoms copy n x.next y.next h
      else
        copyAtoms copy n x.next y.next (h.setAtom j ⟨y.next, x.w, x.t⟩)

/-- `pdp_tree_copy`. -/
def pdpTreeCopy : Nat → Option Nat → Heap → Except ListFault (Nat × Heap)
  | 0, _, _ => .error .endless
  | _ + 1, none, _ => .error .badPointer
  | n + 1, some list, h => do
      let bound := h.loopBound
      let hd ← h.header list
      let (newlist, h) ← pdpListNew h hd.elements
      let newhd ← h.header newlist
      let h ← copyAtoms (pdpTreeCopy n) bound hd.first newhd.first h
      .ok (newlist, h)

section Apply

variable {σ : Type} (m : Nat → Heap × σ → Except ListFault (Heap × σ))

/-- What `pdp_tree_apply` does with an atom. -/
def applyAtom (apply : Option Nat → Heap × σ → Except ListFault (Heap × σ)) (i : Nat) (x : Atom)
    (s : Heap × σ) : Except ListFault (Heap × σ) :=
  if x.t = .list then apply (wList x.w) s else m i s

/-- The loop of `pdp_tree_apply`. -/
def applyAtoms (apply : Option Nat → Heap × σ → Except ListFault (Heap × σ)) :
    Nat → Option Nat → Heap × σ → Except ListFault (Heap × σ)
  | 0, _, _ => .error .endless
  | _ + 1, none, s => .ok s
  | n + 1, some i, s => do
      let (_, x) ← s.1.atom (some i)
      let s ← applyAtom m apply i x s
      let (_, x) ← s.1.atom (some i)
      applyAtoms apply n x.next s

/-- `pdp_tree_apply`. -/
def pdpTreeApply : Nat → Option Nat → Heap × σ → Except ListFault (Heap × σ)
  | 0, _, _ => .error .endless
  | _ + 1, none, s => .ok s
  | n + 1, some l, s => do
      let hd ← s.1.header l
      applyAtoms m (pdpTreeApply n) s.1.loopBound hd.first s

end Apply

/-- What `pdp_tree_clear` does with the word of an atom. -/
def freeWord (free : Option Nat → Heap → Except ListFault Heap) (x : Atom) (h : Heap) :
    Except ListFault Heap :=
  if x.t = .list then free (wList x.w) h else .ok h

/-- The loop of `pdp_tree_clear`. -/
def freeAtoms (free : Option Nat → Heap → Except ListFault Heap) :
    Nat → Option Nat → Heap → Except ListFault Heap
  | 0, _, _ => .error .endless
  | _ + 1, none, h => .ok h
  | n + 1, some i, h => do
      let (_, x) ← h.atom (some i)
      let h ← freeWord free x h
      let (_, x) ← h.atom (some i)
      freeAtoms free n x.next (h.deallocAtom i)

/-- `pdp_tree_clear`. -/
def pdpTreeClear (free : Option Nat → Heap → Except ListFault Heap) (l : Nat) (h : Heap) :
    Except ListFault Heap := do
  let hd ← h.header l
  let h ← freeAtoms free h.loopBound hd.first h
  .ok (h.setHeader l ⟨0, none, none⟩)

/-- `pdp_tree_free`. -/
def pdpTreeFree : Nat → Option Nat → Heap → Except ListFault Heap
  | 0, _, _ => .error .endless
  | _ + 1, none, h => .ok h
  | n + 1, some l, h => do
      let h ← pdpTreeClear (pdpTreeFree n) l h
      .ok (h.deallocList l)

end Heap

/-! ## Trees in lists -/

section Tree

/-- The cell of the atom at the root. -/
def Owned.cell {α : Type} : Owned α → Nat
  | .pure a _ => a
  | .list a _ _ => a

mutual

/-- The atoms of a tree are what they are. -/
def Owned.Lies (A : Lists) : Owned (WordType × Word) → Prop
  | .pure a v => A.val a = some v ∧ v.1 ≠ .list
  | .list a l nodes =>
      A.val a = some (.list, listWord l) ∧ A.seq l = some (nodes.map Owned.cell) ∧ allLie A nodes

def allLie (A : Lists) : List (Owned (WordType × Word)) → Prop
  | [] => True
  | o :: nodes => o.Lies A ∧ allLie A nodes

end

/-- The list `l` is a tree. -/
structure TreeAt (A : Lists) (l : Nat) (nodes : List (Owned (WordType × Word))) : Prop where
  seq : A.seq l = some (nodes.map Owned.cell)
  lie : allLie A nodes

mutual

/-- How deep lists lie in lists. -/
def Node.depth {α : Type} : Node α → Nat
  | .pure _ => 0
  | .list nodes => depths nodes + 1

def depths {α : Type} : List (Node α) → Nat
  | [] => 0
  | o :: nodes => max o.depth (depths nodes)

end

theorem cell_mem_atomIds {α : Type} (o : Owned α) : o.cell ∈ o.atomIds := by
  cases o with
  | pure a v => simp only [Owned.cell, Owned.atomIds, List.mem_singleton]
  | list a l nodes =>
      simp only [Owned.cell, Owned.atomIds, List.mem_append, List.mem_singleton, or_true]

theorem cells_subset {α : Type} (nodes : List (Owned α)) :
    nodes.map Owned.cell ⊆ allAtomIds nodes := by
  induction nodes with
  | nil => exact List.Subset.refl _
  | cons o nodes ih =>
      rw [List.map_cons, allAtomIds]
      exact List.cons_subset.mpr ⟨List.mem_append_left _ (cell_mem_atomIds o),
        List.Subset.trans ih (List.subset_append_right _ _)⟩

mutual

/-- A tree stays where its cells stay as they are. -/
theorem lies_keep {A B : Lists} : ∀ o : Owned (WordType × Word),
    (∀ i ∈ o.atomIds, ∀ v, A.val i = some v → B.val i = some v) →
    (∀ l ∈ o.listIds, ∀ s, A.seq l = some s → B.seq l = some s) → o.Lies A → o.Lies B
  | .pure a v, hval, _, ⟨ha, hv⟩ => ⟨hval a (cell_mem_atomIds (.pure a v)) _ ha, hv⟩
  | .list a l nodes, hval, hseq, ⟨ha, hl, hlie⟩ =>
      ⟨hval a (cell_mem_atomIds (.list a l nodes)) _ ha,
        hseq l (by simp only [Owned.listIds, List.mem_cons, true_or]) _ hl,
        allLie_keep nodes (fun i hi => hval i (List.mem_append_left _ hi))
          (fun k hk => hseq k (List.mem_cons_of_mem _ hk)) hlie⟩

theorem allLie_keep {A B : Lists} : ∀ nodes : List (Owned (WordType × Word)),
    (∀ i ∈ allAtomIds nodes, ∀ v, A.val i = some v → B.val i = some v) →
    (∀ l ∈ allListIds nodes, ∀ s, A.seq l = some s → B.seq l = some s) → allLie A nodes →
    allLie B nodes
  | [], _, _, _ => trivial
  | o :: nodes, hval, hseq, ⟨ho, hlie⟩ =>
      ⟨lies_keep o (fun i hi => hval i (List.mem_append_left _ hi))
          (fun k hk => hseq k (List.mem_append_left _ hk)) ho,
        allLie_keep nodes (fun i hi => hval i (List.mem_append_right _ hi))
          (fun k hk => hseq k (List.mem_append_right _ hk)) hlie⟩

end

mutual

theorem lies_val {A : Lists} : ∀ o : Owned (WordType × Word), o.Lies A →
    ∀ i ∈ o.atomIds, A.val i ≠ none
  | .pure a v, ⟨ha, _⟩, i, hi => by
      rw [List.mem_singleton.mp hi, ha]
      exact Option.some_ne_none _
  | .list a l nodes, ⟨ha, _, hlie⟩, i, hi => by
      rcases List.mem_append.mp hi with hi | hi
      · exact allLie_val nodes hlie i hi
      · rw [List.mem_singleton.mp hi, ha]
        exact Option.some_ne_none _

theorem allLie_val {A : Lists} : ∀ nodes : List (Owned (WordType × Word)), allLie A nodes →
    ∀ i ∈ allAtomIds nodes, A.val i ≠ none
  | [], _, i, hi => absurd hi List.not_mem_nil
  | o :: nodes, ⟨ho, hlie⟩, i, hi => by
      rcases List.mem_append.mp hi with hi | hi
      · exact lies_val o ho i hi
      · exact allLie_val nodes hlie i hi

end

mutual

theorem lies_seq {A : Lists} : ∀ o : Owned (WordType × Word), o.Lies A →
    ∀ l ∈ o.listIds, A.seq l ≠ none
  | .pure a v, _, l, hl => absurd hl List.not_mem_nil
  | .list a k nodes, ⟨_, hk, hlie⟩, l, hl => by
      rcases List.mem_cons.mp hl with rfl | hl
      · rw [hk]
        exact Option.some_ne_none _
      · exact allLie_seq nodes hlie l hl

theorem allLie_seq {A : Lists} : ∀ nodes : List (Owned (WordType × Word)), allLie A nodes →
    ∀ l ∈ allListIds nodes, A.seq l ≠ none
  | [], _, l, hl => absurd hl List.not_mem_nil
  | o :: nodes, ⟨ho, hlie⟩, l, hl => by
      rcases List.mem_append.mp hl with hl | hl
      · exact lies_seq o ho l hl
      · exact allLie_seq nodes hlie l hl

end

theorem allLie_mem {A : Lists} {nodes sub : List (Owned (WordType × Word))} {a l : Nat}
    (hlie : allLie A nodes) (hmem : Owned.list a l sub ∈ nodes) : TreeAt A l sub := by
  induction nodes with
  | nil => cases hmem
  | cons o nodes ih =>
      obtain ⟨ho, hlie⟩ := hlie
      rcases List.mem_cons.mp hmem with rfl | hmem
      · exact ⟨ho.2.1, ho.2.2⟩
      · exact ih hlie hmem

theorem depth_mem {α : Type} {nodes sub : List (Owned α)} {a l : Nat}
    (hmem : Owned.list a l sub ∈ nodes) : depths (eraseAll sub) < depths (eraseAll nodes) := by
  induction nodes with
  | nil => cases hmem
  | cons o nodes ih =>
      rw [eraseAll, depths]
      rcases List.mem_cons.mp hmem with rfl | hmem
      · exact Nat.lt_of_lt_of_le (Nat.lt_succ_self _) (Nat.le_max_left _ _)
      · exact Nat.lt_of_lt_of_le (ih hmem) (Nat.le_max_right _ _)

/-! ## What is new -/

/-- Only the atoms `as` and the lists `ls` may have changed; they were not in use,
apart from the atoms `old`. -/
structure Lists.Grew (A B : Lists) (old as ls : List Nat) : Prop where
  atoms_nodup : as.Nodup
  lists_nodup : ls.Nodup
  atoms : ∀ i ∈ as, i ∈ old ∨ A.val i = none
  lists : ∀ l ∈ ls, A.seq l = none
  val : ∀ i, i ∉ as → B.val i = A.val i
  seq : ∀ l, l ∉ ls → B.seq l = A.seq l

/-- Everything that is in `A` is in `B`. -/
structure Lists.Kept (A B : Lists) : Prop where
  val : ∀ i v, A.val i = some v → B.val i = some v
  seq : ∀ l s, A.seq l = some s → B.seq l = some s

theorem Lists.Kept.refl (A : Lists) : A.Kept A := ⟨fun _ _ h => h, fun _ _ h => h⟩

/-- What was in use is kept, but for the old atoms. -/
theorem Lists.Grew.kept {A B C : Lists} {old as ls : List Nat} (h : B.Grew C old as ls)
    (hAB : A.Kept B) (hold : ∀ i ∈ old, A.val i = none) : A.Kept C where
  val i v hv := by
    have hi : i ∉ as := by
      intro hi
      rcases h.atoms i hi with ho | hn
      · rw [hold i ho] at hv
        cases hv
      · rw [hAB.val i v hv] at hn
        cases hn
    rw [h.val i hi]
    exact hAB.val i v hv
  seq l s hs := by
    have hl : l ∉ ls := by
      intro hl
      have hn := h.lists l hl
      rw [hAB.seq l s hs] at hn
      cases hn
    rw [h.seq l hl]
    exact hAB.seq l s hs

/-- An atom that was in use and is not an old one has not changed. -/
theorem Lists.Grew.not_mem {A B : Lists} {old as ls : List Nat} (h : A.Grew B old as ls) {i : Nat}
    (hi : A.val i ≠ none) (ho : i ∉ old) : i ∉ as := by
  intro hm
  rcases h.atoms i hm with h' | h'
  · exact ho h'
  · exact hi h'

theorem Lists.Grew.trans {A B C : Lists} {old s as ks ls : List Nat} (h : A.Grew B old s ks)
    (h' : B.Grew C s as ls) (hs : s ⊆ as) (hks : ∀ k ∈ ks, B.seq k ≠ none) :
    A.Grew C old as (ks ++ ls) where
  atoms_nodup := h'.atoms_nodup
  lists_nodup := List.nodup_append.mpr ⟨h.lists_nodup, h'.lists_nodup,
    fun k hk l hl he => hks k hk (he ▸ h'.lists l hl)⟩
  atoms i hi := by
    by_cases his : i ∈ s
    · exact h.atoms i his
    · rw [← h.val i his]
      exact Or.inr ((h'.atoms i hi).resolve_left his)
  lists l hl := by
    rcases List.mem_append.mp hl with hl | hl
    · exact h.lists l hl
    · have hnone := h'.lists l hl
      rwa [h.seq l fun hk => hks l hk hnone] at hnone
  val i hi := by rw [h'.val i hi, h.val i fun his => hi (hs his)]
  seq l hl := by
    obtain ⟨hk, hl⟩ := not_or.mp (List.mem_append.not.mp hl)
    rw [h'.seq l hl, h.seq l hk]

theorem Lists.Grew.cons {A B C : Lists} {o : Owned (WordType × Word)} {post as ls : List Nat}
    (h : A.Grew B [o.cell] o.atomIds o.listIds) (h' : B.Grew C post as ls) (ho : o.Lies B)
    (hcell : o.cell ∉ post) (hpost : ∀ i ∈ post, A.val i ≠ none) :
    A.Grew C (o.cell :: post) (o.atomIds ++ as) (o.listIds ++ ls) ∧ o.Lies C := by
  have hatoms : ∀ i ∈ o.atomIds, i ∉ as := by
    intro i hi
    refine h'.not_mem (lies_val o ho i hi) fun hp => ?_
    rcases h.atoms i hi with hc | hn
    · exact hcell (List.mem_singleton.mp hc ▸ hp)
    · exact hpost i hp hn
  have hlists : ∀ l ∈ o.listIds, l ∉ ls := fun l hl hl' => lies_seq o ho l hl (h'.lists l hl')
  refine ⟨⟨?_, ?_, fun i hi => ?_, fun l hl => ?_, fun i hi => ?_, fun l hl => ?_⟩, ?_⟩
  · exact List.nodup_append.mpr ⟨h.atoms_nodup, h'.atoms_nodup,
      fun i hi j hj he => hatoms i hi (he ▸ hj)⟩
  · exact List.nodup_append.mpr ⟨h.lists_nodup, h'.lists_nodup,
      fun l hl k hk he => hlists l hl (he ▸ hk)⟩
  · rcases List.mem_append.mp hi with hi | hi
    · exact (h.atoms i hi).imp_left fun hc => List.mem_cons.mpr (Or.inl (List.mem_singleton.mp hc))
    · rcases h'.atoms i hi with hp | hn
      · exact Or.inl (List.mem_cons_of_mem _ hp)
      · by_cases hio : i ∈ o.atomIds
        · exact absurd hn (lies_val o ho i hio)
        · rw [h.val i hio] at hn
          exact Or.inr hn
  · rcases List.mem_append.mp hl with hl | hl
    · exact h.lists l hl
    · by_cases hlo : l ∈ o.listIds
      · exact h.lists l hlo
      · rw [← h.seq l hlo]
        exact h'.lists l hl
  · obtain ⟨hi₁, hi₂⟩ := not_or.mp (List.mem_append.not.mp hi)
    rw [h'.val i hi₂, h.val i hi₁]
  · obtain ⟨hl₁, hl₂⟩ := not_or.mp (List.mem_append.not.mp hl)
    rw [h'.seq l hl₂, h.seq l hl₁]
  · refine lies_keep o (fun i hi v hv => ?_) (fun l hl s hs => ?_) ho
    · rwa [h'.val i (hatoms i hi)]
    · rwa [h'.seq l (hlists l hl)]

end Tree

/-! ## `pdp_tree_copy` -/

section Copy

/-- `copy` makes a tree that says the same, of cells that were not in use. -/
def Copies (copy : Option Nat → Heap → Except ListFault (Nat × Heap)) (A : Lists) (l : Nat)
    (nodes : List (Owned (WordType × Word))) : Prop :=
  ∀ {h B}, Rep h B → A.Kept B → ∃ l' h' C nodes', copy (some l) h = .ok (l', h') ∧ Rep h' C ∧
    TreeAt C l' nodes' ∧ eraseAll nodes' = eraseAll nodes ∧
    B.Grew C [] (allAtomIds nodes') (l' :: allListIds nodes')

theorem put_of_ne (A : Lists) {i j : Nat} (h : i ≠ j) (v : WordType × Word) :
    (A.put j v).val i = A.val i := Function.update_of_ne h ..

@[simp] theorem put_self (A : Lists) (j : Nat) (v : WordType × Word) :
    (A.put j v).val j = some v := Function.update_self ..

theorem grew_put (A : Lists) (j : Nat) (v : WordType × Word) :
    A.Grew (A.put j v) [j] [j] [] where
  atoms_nodup := List.nodup_singleton j
  lists_nodup := List.nodup_nil
  atoms := fun _ hi => Or.inl hi
  lists := fun _ hl => absurd hl List.not_mem_nil
  val := fun _ hi => put_of_ne A (fun he => hi (List.mem_singleton.mpr he)) v
  seq := fun _ _ => rfl

/-- An atom is written to, a tree is made, and the atom is written to again. -/
theorem Lists.Grew.around {A B : Lists} {j l : Nat} {u : WordType × Word}
    {nodes : List (Owned (WordType × Word))}
    (h : (A.put j u).Grew B [] (allAtomIds nodes) (l :: allListIds nodes)) (hl : TreeAt B l nodes) :
    A.Grew (B.put j (.list, listWord l)) [j] (Owned.list j l nodes).atomIds
      (Owned.list j l nodes).listIds ∧
    (Owned.list j l nodes).Lies (B.put j (.list, listWord l)) := by
  have hj : j ∉ allAtomIds nodes := h.not_mem (by simp) List.not_mem_nil
  have hne : ∀ i ∈ allAtomIds nodes, i ≠ j := fun i hi he => hj (he ▸ hi)
  refine ⟨⟨?_, h.lists_nodup, fun i hi => ?_, h.lists, fun i hi => ?_, h.seq⟩, put_self ..,
    hl.seq, allLie_keep (A := B) nodes (fun i hi v hv => ?_) (fun _ _ _ hs => hs) hl.lie⟩
  · exact nodup_append h.atoms_nodup hj
  · rcases List.mem_append.mp hi with hi | hi
    · have hval := (h.atoms i hi).resolve_left List.not_mem_nil
      rw [put_of_ne A (hne i hi)] at hval
      exact Or.inr hval
    · exact Or.inl hi
  · obtain ⟨hi₁, hi₂⟩ := not_or.mp (List.mem_append.not.mp hi)
    have hij : i ≠ j := fun he => hi₂ (List.mem_singleton.mpr he)
    rw [put_of_ne B hij, h.val i hi₁, put_of_ne A hij]
  · rwa [put_of_ne B (hne i hi)]

variable {copy : Option Nat → Heap → Except ListFault (Nat × Heap)} {A : Lists} {l m : Nat}

/-- The first atom of `o :: nodes` is copied to the first of `j :: post'`. -/
theorem copyAtom_spec {o : Owned (WordType × Word)} {nodes : List (Owned (WordType × Word))}
    (hcopy : ∀ a k sub, Owned.list a k sub = o → Copies copy A k sub) (ho : o.Lies A)
    {pre : List Nat} (hl : A.seq l = some (pre ++ o.cell :: nodes.map Owned.cell))
    {h : Heap} {B : Lists} {pre' post' : List Nat} {j : Nat} (hR : Rep h B) (hAB : A.Kept B)
    (hm : B.seq m = some (pre' ++ j :: post')) (hnew : ∀ i ∈ [j], A.val i = none) :
    ∃ h₁ B₁, ∃ o' : Owned (WordType × Word), (∀ n, Heap.copyAtoms copy (n + 1) (some o.cell) (some j) h =
        Heap.copyAtoms copy n (nodes.map Owned.cell).head? post'.head? h₁) ∧
      Rep h₁ B₁ ∧ o'.cell = j ∧ o'.Lies B₁ ∧ o'.erase = o.erase ∧
      B.Grew B₁ [j] o'.atomIds o'.listIds := by
  obtain ⟨⟨y, hy, hynext⟩, -⟩ := linked_suffix (hR.linked m _ hm)
  cases o with
  | pure i v =>
      obtain ⟨hv, hv'⟩ := ho
      have hlB : B.seq l = some (pre ++ i :: nodes.map Owned.cell) := hAB.seq l _ hl
      obtain ⟨x, hx, hnext, ht, hw⟩ := hR.read hlB (hAB.val i v hv)
      refine ⟨_, _, .pure j v, fun n => ?_, hR.set_value hy v, rfl, ⟨put_self .., hv'⟩, rfl,
        grew_put B j v⟩
      have hxt : ¬ x.t = .list := fun he => hv' (ht ▸ he)
      simp only [Owned.cell, Heap.copyAtoms, atom_eq hx, atom_eq hy, ok_bind, if_neg hxt]
      rw [ht, hw, hnext, hynext]
  | list i k sub =>
      obtain ⟨hv, -⟩ := ho
      have hlB : B.seq l = some (pre ++ i :: nodes.map Owned.cell) := hAB.seq l _ hl
      obtain ⟨x, hx, -, ht, hw⟩ := hR.read hlB (hAB.val i _ hv)
      have hR₁ := hR.set_value hy (.list, y.w)
      obtain ⟨k', h₂, B₂, sub', hrun₂, hR₂, hk', herase, hgrew⟩ :=
        hcopy i k sub rfl hR₁ ((grew_put B j (.list, y.w)).kept hAB hnew)
      obtain ⟨hgrown, hlies⟩ := hgrew.around hk'
      have hm₂ : B₂.seq m = some (pre' ++ j :: post') := by
        have hml : m ∉ k' :: allListIds sub' := by
          intro hm'
          have hnone := hgrew.lists m hm'
          rw [show (B.put j (.list, y.w)).seq m = B.seq m from rfl, hm] at hnone
          cases hnone
        rw [hgrew.seq m hml]
        exact hm
      have hj₂ : B₂.val j = some (.list, y.w) := by
        rw [hgrew.val j (hgrew.not_mem (by simp) List.not_mem_nil), put_self]
      obtain ⟨y₂, hy₂, hynext₂, hyt, -⟩ := hR₂.read hm₂ hj₂
      have hR₃ : Rep (h₂.setAtom j ⟨post'.head?, listWord k', .list⟩)
          (B₂.put j (.list, listWord k')) := by
        rw [← hynext₂]
        exact hR₂.set_value hy₂ (.list, listWord k')
      have hAB₃ := hgrown.kept hAB hnew
      have hl₃ : (B₂.put j (.list, listWord k')).seq l =
          some (pre ++ i :: nodes.map Owned.cell) := hAB₃.seq l _ hl
      obtain ⟨x₃, hx₃, hnext₃, -, -⟩ := hR₃.read hl₃ (hAB₃.val i _ hv)
      refine ⟨_, _, .list j k' sub', fun n => ?_, hR₃, rfl, hlies,
        by rw [Owned.erase, Owned.erase, herase], hgrown⟩
      have hword : wList x.w = some k := by rw [hw, wList_listWord]
      simp only [Owned.cell, Heap.copyAtoms, atom_eq hx, atom_eq hy, ok_bind, ht, if_true, hword,
        hrun₂, atom_eq hy₂, hyt, hynext₂, atom_eq hx₃, hnext₃]

/-- The atoms of `nodes` are copied to the atoms `post'`. -/
theorem copyAtoms_spec {nodes : List (Owned (WordType × Word))}
    (hcopy : ∀ a k sub, Owned.list a k sub ∈ nodes → Copies copy A k sub) (hlie : allLie A nodes)
    (pre : List Nat) (hl : A.seq l = some (pre ++ nodes.map Owned.cell)) {n : Nat}
    (hn : nodes.length < n) {h : Heap} {B : Lists} (pre' : List Nat) {post' : List Nat}
    (hR : Rep h B) (hAB : A.Kept B) (hm : B.seq m = some (pre' ++ post'))
    (hlen : post'.length = nodes.length)
    (hnew : ∀ i ∈ post', A.val i = none) :
    ∃ h' C nodes', Heap.copyAtoms copy n (nodes.map Owned.cell).head? post'.head? h = .ok h' ∧
      Rep h' C ∧ nodes'.map Owned.cell = post' ∧ allLie C nodes' ∧
      eraseAll nodes' = eraseAll nodes ∧
      B.Grew C post' (allAtomIds nodes') (allListIds nodes') := by
  induction nodes generalizing pre n h B pre' post' with
  | nil =>
      cases n with
      | zero => exact absurd hn (Nat.not_lt_zero _)
      | succ n =>
          obtain rfl : post' = [] := List.eq_nil_of_length_eq_zero hlen
          exact ⟨h, B, [], rfl, hR, rfl, trivial, rfl, List.nodup_nil, List.nodup_nil,
            fun _ hi => Or.inl hi, fun _ hk => absurd hk List.not_mem_nil, fun _ _ => rfl,
            fun _ _ => rfl⟩
  | cons o nodes ih =>
      cases n with
      | zero => exact absurd hn (Nat.not_lt_zero _)
      | succ n =>
          cases post' with
          | nil => cases hlen
          | cons j post' =>
              obtain ⟨ho, hlie⟩ := hlie
              have hnd := (List.nodup_append.mp (hR.nodup m _ hm)).2.1
              obtain ⟨hj, -⟩ := List.nodup_cons.mp hnd
              have hpost : ∀ i ∈ j :: post', B.val i ≠ none := fun i hi =>
                hR.val_ne_none hm (List.mem_append_right _ hi)
              have hnewj : ∀ i ∈ [j], A.val i = none := fun i hi =>
                hnew i (List.mem_singleton.mp hi ▸ List.mem_cons_self)
              obtain ⟨h₁, B₁, o', hfirst, hR₁, hcell, ho', herase, hgrew⟩ :=
                copyAtom_spec
                  (fun a k sub he => hcopy a k sub (he ▸ List.mem_cons_self)) ho hl hR hAB hm hnewj
              -- what is left to do once the first atom has been copied
              have hm₁ : B₁.seq m = some ((pre' ++ [j]) ++ post') := by
                have hml : m ∉ o'.listIds := by
                  intro hm'
                  have hnone := hgrew.lists m hm'
                  rw [hm] at hnone
                  cases hnone
                rw [hgrew.seq m hml, hm, List.append_assoc]
                rfl
              have hl' : A.seq l = some ((pre ++ [o.cell]) ++ nodes.map Owned.cell) := by
                rw [hl, List.append_assoc]
                rfl
              obtain ⟨h', C, nodes', hrun, hR', hcells, hlie', herase', hgrew'⟩ :=
                ih (fun a k sub hmem => hcopy a k sub (List.mem_cons_of_mem _ hmem)) hlie _ hl'
                  (Nat.lt_of_succ_lt_succ hn) _ hR₁ (hgrew.kept hAB hnewj) hm₁ (Nat.succ.inj hlen)
                  fun i hi => hnew i (List.mem_cons_of_mem _ hi)
              subst hcell
              obtain ⟨hgrown, hlies⟩ := hgrew.cons hgrew' ho' hj fun i hi =>
                hpost i (List.mem_cons_of_mem _ hi)
              refine ⟨h', C, o' :: nodes', ?_, hR', ?_, ⟨hlies, hlie'⟩, ?_, hgrown⟩
              · rw [List.map_cons, List.head?_cons, List.head?_cons, hfirst, hrun]
              · rw [List.map_cons, hcells]
              · rw [eraseAll, eraseAll, herase, herase']

/-- `pdp_tree_copy` makes a tree that says the same, of new cells. -/
theorem pdpTreeCopy_spec {n : Nat} {nodes : List (Owned (WordType × Word))}
    (hn : depths (eraseAll nodes) < n) (hl : TreeAt A l nodes) :
    Copies (Heap.pdpTreeCopy n) A l nodes := by
  induction n generalizing l nodes with
  | zero => exact absurd hn (Nat.not_lt_zero _)
  | succ n ih =>
      intro h B hR hAB
      have hlB := hAB.seq l _ hl.seq
      have hsmall := hR.small l _ hlB
      obtain ⟨h₁, B₁, s, hnew, hR₁, hseq, hlen, hN⟩ := new_spec hR hsmall
      have hnext := hR.next_list
      have hgrew : B.Grew (B₁.set h.lists.next s) [] s [h.lists.next] := by
        refine ⟨hN.nodup, List.nodup_singleton _, fun i hi => Or.inr (hN.unused i hi),
          fun k hk => ?_, hN.others, fun k hk => ?_⟩
        · rw [List.mem_singleton.mp hk]
          exact hnext
        · rw [B₁.seq_set_of_ne (fun he => hk (List.mem_singleton.mpr he)), hseq]
      have hAB₁ : A.Kept (B₁.set h.lists.next s) :=
        hgrew.kept hAB fun _ hi => absurd hi List.not_mem_nil
      have hunused : ∀ i ∈ s, A.val i = none := by
        intro i hi
        cases hv : A.val i with
        | none => rfl
        | some v =>
            have hval := hAB.val i v hv
            rw [hN.unused i hi] at hval
            cases hval
      obtain ⟨h', C, nodes', hrun, hR', hcells, hlie', herase, hgrew'⟩ :=
        copyAtoms_spec (m := h.lists.next) (n := h.loopBound)
          (fun a k sub hmem => ih (by have := depth_mem hmem; omega) (allLie_mem hl.lie hmem))
          hl.lie [] hl.seq (by simpa only [List.length_map] using hR.length_lt hlB) [] hR₁ hAB₁
          (B₁.seq_set_self _ s) (by rw [hlen, List.length_map]) hunused
      have hgrown := hgrew.trans hgrew' (hcells ▸ cells_subset nodes') fun k hk => by
        rw [List.mem_singleton.mp hk, B₁.seq_set_self]
        exact Option.some_ne_none _
      have hkept : C.seq h.lists.next = some s := by
        have hnot : h.lists.next ∉ allListIds nodes' := by
          intro hm
          have hnone := hgrew'.lists _ hm
          rw [B₁.seq_set_self] at hnone
          cases hnone
        rw [hgrew'.seq _ hnot, B₁.seq_set_self]
      refine ⟨h.lists.next, h', C, nodes', ?_, hR', ⟨hcells ▸ hkept, hlie'⟩, herase, hgrown⟩
      have hfirst : ∀ s, (headerOf s).first = s.head? := fun _ => rfl
      have helements : (headerOf (nodes.map Owned.cell)).elements =
          ((nodes.map Owned.cell).length : Nat) := rfl
      simp only [Heap.pdpTreeCopy, hR.header hlB, ok_bind, helements, hnew,
        hR₁.header (B₁.seq_set_self _ s), hfirst, hrun]

end Copy

/-! ## `pdp_tree_apply` -/

section Apply

variable {σ : Type}

mutual

/-- A tree after `f` has been called for its atoms. -/
def Owned.applied (f : WordType × Word → σ → (WordType × Word) × σ) :
    Owned (WordType × Word) → σ → Owned (WordType × Word) × σ
  | .pure a v, s => (.pure a (f v s).1, (f v s).2)
  | .list a l nodes, s => (.list a l (allApplied f nodes s).1, (allApplied f nodes s).2)

def allApplied (f : WordType × Word → σ → (WordType × Word) × σ) :
    List (Owned (WordType × Word)) → σ → List (Owned (WordType × Word)) × σ
  | [], s => ([], s)
  | o :: nodes, s =>
      ((o.applied f s).1 :: (allApplied f nodes (o.applied f s).2).1,
        (allApplied f nodes (o.applied f s).2).2)

end

mutual

theorem applied_ids (f : WordType × Word → σ → (WordType × Word) × σ) :
    ∀ (o : Owned (WordType × Word)) (s : σ), (o.applied f s).1.cell = o.cell ∧
      (o.applied f s).1.atomIds = o.atomIds ∧ (o.applied f s).1.listIds = o.listIds
  | .pure a v, s => ⟨rfl, rfl, rfl⟩
  | .list a l nodes, s => by
      obtain ⟨-, hatoms, hlists⟩ := allApplied_ids f nodes s
      refine ⟨rfl, ?_, ?_⟩
      · rw [Owned.applied, Owned.atomIds, Owned.atomIds, hatoms]
      · rw [Owned.applied, Owned.listIds, Owned.listIds, hlists]

theorem allApplied_ids (f : WordType × Word → σ → (WordType × Word) × σ) :
    ∀ (nodes : List (Owned (WordType × Word))) (s : σ),
      (allApplied f nodes s).1.map Owned.cell = nodes.map Owned.cell ∧
      allAtomIds (allApplied f nodes s).1 = allAtomIds nodes ∧
      allListIds (allApplied f nodes s).1 = allListIds nodes
  | [], s => ⟨rfl, rfl, rfl⟩
  | o :: nodes, s => by
      obtain ⟨hcell, hatoms, hlists⟩ := applied_ids f o s
      obtain ⟨hcells, hatoms', hlists'⟩ := allApplied_ids f nodes (o.applied f s).2
      refine ⟨?_, ?_, ?_⟩
      · rw [allApplied, List.map_cons, List.map_cons, hcell, hcells]
      · rw [allApplied, allAtomIds, allAtomIds, hatoms, hatoms']
      · rw [allApplied, allListIds, allListIds, hlists, hlists']

end

mutual

theorem applied_depth (f : WordType × Word → σ → (WordType × Word) × σ) :
    ∀ (o : Owned (WordType × Word)) (s : σ), (o.applied f s).1.erase.depth = o.erase.depth
  | .pure a v, s => rfl
  | .list a l nodes, s => by
      rw [Owned.applied, Owned.erase, Owned.erase, Node.depth, Node.depth,
        allApplied_depths f nodes s]

theorem allApplied_depths (f : WordType × Word → σ → (WordType × Word) × σ) :
    ∀ (nodes : List (Owned (WordType × Word))) (s : σ),
      depths (eraseAll (allApplied f nodes s).1) = depths (eraseAll nodes)
  | [], s => rfl
  | o :: nodes, s => by
      rw [allApplied, eraseAll, eraseAll, depths, depths, applied_depth f o s,
        allApplied_depths f nodes]

end

/-- `m` does to an atom that is no list what `f` says. -/
def Acts (m : Nat → Heap × σ → Except ListFault (Heap × σ))
    (f : WordType × Word → σ → (WordType × Word) × σ) : Prop :=
  ∀ {h A i v}, Rep h A → A.val i = some v → v.1 ≠ .list → ∀ s, (f v s).1.1 ≠ .list ∧
    ∃ h', m i (h, s) = .ok (h', (f v s).2) ∧ Rep h' (A.put i (f v s).1)

/-- `apply` does to the tree at `l` what `f` says, and nothing else. -/
def Applies (apply : Option Nat → Heap × σ → Except ListFault (Heap × σ))
    (f : WordType × Word → σ → (WordType × Word) × σ) (l : Nat)
    (nodes : List (Owned (WordType × Word))) : Prop :=
  ∀ {h A} (s : σ), Rep h A → TreeAt A l nodes → (allAtomIds nodes).Nodup →
    ∃ h' B, apply (some l) (h, s) = .ok (h', (allApplied f nodes s).2) ∧ Rep h' B ∧
      allLie B (allApplied f nodes s).1 ∧ B.seq = A.seq ∧
      ∀ i, i ∉ allAtomIds nodes → B.val i = A.val i

variable {m : Nat → Heap × σ → Except ListFault (Heap × σ)}
  {f : WordType × Word → σ → (WordType × Word) × σ}

theorem applyAtoms_spec {apply : Option Nat → Heap × σ → Except ListFault (Heap × σ)} {l : Nat}
    (hm : Acts m f) {nodes : List (Owned (WordType × Word))}
    (happly : ∀ a k sub, Owned.list a k sub ∈ nodes → Applies apply f k sub) {n : Nat}
    (hn : nodes.length < n) {h : Heap} {A : Lists} (pre : List Nat) (s : σ) (hR : Rep h A)
    (hl : A.seq l = some (pre ++ nodes.map Owned.cell)) (hlie : allLie A nodes)
    (hnd : (allAtomIds nodes).Nodup) :
    ∃ h' B, Heap.applyAtoms m apply n (nodes.map Owned.cell).head? (h, s) =
        .ok (h', (allApplied f nodes s).2) ∧ Rep h' B ∧ allLie B (allApplied f nodes s).1 ∧
      B.seq = A.seq ∧ ∀ i, i ∉ allAtomIds nodes → B.val i = A.val i := by
  induction nodes generalizing pre n h A s with
  | nil =>
      cases n with
      | zero => exact absurd hn (Nat.not_lt_zero _)
      | succ n => exact ⟨h, A, rfl, hR, trivial, rfl, fun _ _ => rfl⟩
  | cons o nodes ih =>
      cases n with
      | zero => exact absurd hn (Nat.not_lt_zero _)
      | succ n =>
          obtain ⟨ho, hlie⟩ := hlie
          obtain ⟨hndo, hnd, hdis⟩ := List.nodup_append.mp hnd
          have hcell := cell_mem_atomIds o
          obtain ⟨v, hv⟩ := Option.ne_none_iff_exists'.mp (lies_val o ho o.cell hcell)
          obtain ⟨x, hx, -, ht, hw⟩ := hR.read hl hv
          -- the first atom, and what is in it
          have hfirst : ∃ h₁ B₁, Heap.applyAtom m apply o.cell x (h, s) =
              .ok (h₁, (o.applied f s).2) ∧ Rep h₁ B₁ ∧ (o.applied f s).1.Lies B₁ ∧
              B₁.seq = A.seq ∧ ∀ i, i ∉ o.atomIds → B₁.val i = A.val i := by
            cases o with
            | pure i u =>
                obtain ⟨hu, hu'⟩ := ho
                obtain rfl : u = v := Option.some.inj (hu.symm.trans hv)
                have hxt : ¬ x.t = .list := fun he => hu' (ht ▸ he)
                obtain ⟨hkind, h₁, hrun, hR₁⟩ := hm hR hu hu' s
                refine ⟨h₁, A.put i (f u s).1, ?_, hR₁, ⟨put_self .., hkind⟩, rfl, fun j hj =>
                  put_of_ne A (fun he => hj (List.mem_singleton.mpr he)) _⟩
                unfold Heap.applyAtom
                rw [if_neg hxt]
                exact hrun
            | list i k sub =>
                obtain ⟨hi, hk, hsub⟩ := ho
                obtain rfl : (.list, listWord k) = v := Option.some.inj (hi.symm.trans hv)
                have hisub : i ∉ allAtomIds sub := fun him =>
                  (List.nodup_append.mp hndo).2.2 i him i (List.mem_singleton.mpr rfl) rfl
                obtain ⟨h₁, B₁, hrun, hR₁, hlie₁, hseq₁, hval₁⟩ :=
                  happly i k sub List.mem_cons_self s hR ⟨hk, hsub⟩ (List.nodup_append.mp hndo).1
                refine ⟨h₁, B₁, ?_, hR₁, ⟨(hval₁ i hisub).trans hi, ?_, hlie₁⟩, hseq₁, fun j hj =>
                  hval₁ j fun hjm => hj (List.mem_append_left _ hjm)⟩
                · unfold Heap.applyAtom
                  rw [if_pos ht, hw, wList_listWord]
                  exact hrun
                · rw [hseq₁, hk, (allApplied_ids f sub s).1]
          obtain ⟨h₁, B₁, hrun₁, hR₁, hlies₁, hseq₁, hval₁⟩ := hfirst
          have hother : ∀ i ∈ allAtomIds nodes, B₁.val i = A.val i := fun i hi =>
            hval₁ i fun hio => hdis i hio i hi rfl
          have hl₁ : B₁.seq l = some ((pre ++ [o.cell]) ++ nodes.map Owned.cell) := by
            rw [hseq₁, hl, List.append_assoc]
            rfl
          have hlie₁ : allLie B₁ nodes := allLie_keep nodes
            (fun i hi v hv => (hother i hi).trans hv) (fun k _ s hs => (congrFun hseq₁ k).trans hs)
            hlie
          obtain ⟨h', B, hrun, hR', hlie', hseq, hval⟩ :=
            ih (fun a k sub hmem => happly a k sub (List.mem_cons_of_mem _ hmem))
              (Nat.lt_of_succ_lt_succ hn) _ (o.applied f s).2 hR₁ hl₁ hlie₁ hnd
          obtain ⟨hcell₁, hids, -⟩ := applied_ids f o s
          obtain ⟨v₁, hv₁⟩ := Option.ne_none_iff_exists'.mp
            (lies_val _ hlies₁ o.cell (hids ▸ hcell))
          have hl₁' : B₁.seq l = some (pre ++ o.cell :: nodes.map Owned.cell) :=
            (congrFun hseq₁ l).trans hl
          obtain ⟨x₁, hx₁, hnext₁, -, -⟩ := hR₁.read hl₁' hv₁
          refine ⟨h', B, ?_, hR', ⟨?_, hlie'⟩, hseq.trans hseq₁, fun i hi => ?_⟩
          · simp only [List.map_cons, List.head?_cons, Heap.applyAtoms, atom_eq hx, ok_bind, hrun₁,
              atom_eq hx₁, hnext₁, hrun, allApplied]
          · refine lies_keep _ (fun i hi v hv => ?_) (fun k _ s hs => ?_) hlies₁
            · rw [hids] at hi
              rwa [hval i fun hin => hdis i hi i hin rfl]
            · rwa [hseq]
          · obtain ⟨hi₁, hi₂⟩ := not_or.mp (List.mem_append.not.mp hi)
            rw [hval i hi₂, hval₁ i hi₁]

theorem pdpTreeApply_spec (hm : Acts m f) {n l : Nat} {nodes : List (Owned (WordType × Word))}
    (hn : depths (eraseAll nodes) < n) : Applies (Heap.pdpTreeApply m n) f l nodes := by
  induction n generalizing l nodes with
  | zero => exact absurd hn (Nat.not_lt_zero _)
  | succ n ih =>
      intro h A s hR hl hnd
      have hlen : nodes.length < h.loopBound := by
        simpa only [List.length_map] using hR.length_lt hl.seq
      obtain ⟨h', B, hrun, hresult⟩ := applyAtoms_spec hm
        (fun a k sub hmem => ih (l := k) (by have := depth_mem hmem; omega)) hlen [] s hR hl.seq
        hl.lie hnd
      refine ⟨h', B, ?_, hresult⟩
      have hfirst : (headerOf (nodes.map Owned.cell)).first = (nodes.map Owned.cell).head? := rfl
      simp only [Heap.pdpTreeApply, hR.header hl.seq, ok_bind, hfirst, hrun]

end Apply

/-! ## `pdp_tree_free` -/

section Free

/-- The atoms `as` and the lists `ls` have been given back. -/
structure Heap.Frees (h h' : Heap) (as ls : List Nat) : Prop where
  atoms : ∀ i, h'.atoms.cells i = if i ∈ as then none else h.atoms.cells i
  lists : ∀ l, h'.lists.cells l = if l ∈ ls then none else h.lists.cells l

/-- The atoms `as` and the lists `ls` are as they were. -/
structure Heap.Agrees (h h' : Heap) (as ls : List Nat) : Prop where
  atoms : ∀ i ∈ as, h'.atoms.cells i = h.atoms.cells i
  lists : ∀ l ∈ ls, h'.lists.cells l = h.lists.cells l

theorem Heap.Frees.refl (h : Heap) : h.Frees h [] [] :=
  ⟨fun _ => (if_neg List.not_mem_nil).symm, fun _ => (if_neg List.not_mem_nil).symm⟩

theorem Heap.Frees.trans {h h₁ h₂ : Heap} {as ls as' ls' : List Nat} (hf : h.Frees h₁ as ls)
    (hf' : h₁.Frees h₂ as' ls') : h.Frees h₂ (as ++ as') (ls ++ ls') where
  atoms i := by
    rw [hf'.atoms, hf.atoms]
    by_cases hi : i ∈ as'
    · rw [if_pos hi, if_pos (List.mem_append_right _ hi)]
    · simp only [List.mem_append, hi, or_false, if_false]
  lists l := by
    rw [hf'.lists, hf.lists]
    by_cases hl : l ∈ ls'
    · rw [if_pos hl, if_pos (List.mem_append_right _ hl)]
    · simp only [List.mem_append, hl, or_false, if_false]

/-- Cells that have not been given back are as they were. -/
theorem Heap.Agrees.frees {h₀ h h' : Heap} {as ls as' ls' : List Nat} (ha : h₀.Agrees h as' ls')
    (hf : h.Frees h' as ls) (has : ∀ i ∈ as', i ∉ as) (hls : ∀ l ∈ ls', l ∉ ls) :
    h₀.Agrees h' as' ls' where
  atoms i hi := by rw [hf.atoms, if_neg (has i hi), ha.atoms i hi]
  lists l hl := by rw [hf.lists, if_neg (hls l hl), ha.lists l hl]

theorem Heap.Agrees.mono {h₀ h : Heap} {as ls as' ls' : List Nat} (ha : h₀.Agrees h as ls)
    (has : as' ⊆ as) (hls : ls' ⊆ ls) : h₀.Agrees h as' ls' :=
  ⟨fun i hi => ha.atoms i (has hi), fun l hl => ha.lists l (hls hl)⟩

theorem frees_deallocAtom {h : Heap} {i : Nat} {x : Atom} (hx : h.atoms.cells i = some x) :
    h.Frees (h.deallocAtom i) [i] [] where
  atoms j := by
    show (h.atoms.dealloc i).cells j = _
    rw [h.atoms.cells_dealloc hx, Function.update_apply]
    simp only [List.mem_singleton]
  lists := fun _ => (if_neg List.not_mem_nil).symm

/-- `free` gives the tree at `l` back, and nothing else. -/
def FreesTree (free : Option Nat → Heap → Except ListFault Heap) (h₀ : Heap) (l : Nat)
    (nodes : List (Owned (WordType × Word))) : Prop :=
  ∀ {h : Heap}, (allAtomIds nodes).Nodup → (l :: allListIds nodes).Nodup →
    h₀.Agrees h (allAtomIds nodes) (l :: allListIds nodes) →
    ∃ h', free (some l) h = .ok h' ∧ h.Frees h' (allAtomIds nodes) (l :: allListIds nodes)

theorem freeAtoms_spec {free : Option Nat → Heap → Except ListFault Heap} {h₀ : Heap} {A : Lists}
    (hR : Rep h₀ A) {nodes : List (Owned (WordType × Word))}
    (hfree : ∀ a k sub, Owned.list a k sub ∈ nodes → FreesTree free h₀ k sub) {l : Nat}
    (pre : List Nat) (hl : A.seq l = some (pre ++ nodes.map Owned.cell)) (hlie : allLie A nodes)
    {n : Nat} (hn : nodes.length < n) {h : Heap} (hatoms : (allAtomIds nodes).Nodup)
    (hlists : (allListIds nodes).Nodup) (ha : h₀.Agrees h (allAtomIds nodes) (allListIds nodes)) :
    ∃ h', Heap.freeAtoms free n (nodes.map Owned.cell).head? h = .ok h' ∧
      h.Frees h' (allAtomIds nodes) (allListIds nodes) := by
  induction nodes generalizing pre n h with
  | nil =>
      cases n with
      | zero => exact absurd hn (Nat.not_lt_zero _)
      | succ n => exact ⟨h, rfl, .refl h⟩
  | cons o nodes ih =>
      cases n with
      | zero => exact absurd hn (Nat.not_lt_zero _)
      | succ n =>
          obtain ⟨ho, hlie⟩ := hlie
          obtain ⟨hndo, hnd, hdis⟩ := List.nodup_append.mp hatoms
          obtain ⟨hndl, hnd', hdis'⟩ := List.nodup_append.mp hlists
          have hcell := cell_mem_atomIds o
          obtain ⟨v, hv⟩ := Option.ne_none_iff_exists'.mp (lies_val o ho o.cell hcell)
          obtain ⟨x, hx, hnext, ht, hw⟩ := hR.read hl hv
          have hxh : h.atoms.cells o.cell = some x :=
            (ha.atoms _ (List.mem_append_left _ hcell)).trans hx
          -- what is in the first atom, and then the atom itself
          have hfirst : ∃ h₁, Heap.freeWord free x h = .ok h₁ ∧ h₁.atoms.cells o.cell = some x ∧
              h.Frees (h₁.deallocAtom o.cell) o.atomIds o.listIds := by
            cases o with
            | pure i u =>
                obtain ⟨hu, hu'⟩ := ho
                obtain rfl : u = v := Option.some.inj (hu.symm.trans hv)
                have hxt : ¬ x.t = .list := fun he => hu' (ht ▸ he)
                exact ⟨h, if_neg hxt, hxh, frees_deallocAtom hxh⟩
            | list i k sub =>
                obtain ⟨hi, -, -⟩ := ho
                obtain rfl : (.list, listWord k) = v := Option.some.inj (hi.symm.trans hv)
                obtain ⟨hsub, -, hisub⟩ := List.nodup_append.mp hndo
                obtain ⟨h₁, hrun, hf⟩ := hfree i k sub List.mem_cons_self hsub hndl
                  (ha.mono (fun j hj => List.mem_append_left _ (List.mem_append_left _ hj))
                    (List.subset_append_left _ _))
                have hx₁ : h₁.atoms.cells i = some x := by
                  rw [hf.atoms, if_neg fun him => hisub i him i (List.mem_singleton.mpr rfl) rfl]
                  exact hxh
                refine ⟨h₁, ?_, hx₁, ?_⟩
                · unfold Heap.freeWord
                  rw [if_pos ht, hw, wList_listWord]
                  exact hrun
                · have hboth := hf.trans (frees_deallocAtom hx₁)
                  rw [List.append_nil] at hboth
                  exact hboth
          obtain ⟨h₁, hrun₁, hx₁, hf₁⟩ := hfirst
          have hl' : A.seq l = some ((pre ++ [o.cell]) ++ nodes.map Owned.cell) := by
            rw [hl, List.append_assoc]
            rfl
          have hrest := ha.mono (List.subset_append_right _ _) (List.subset_append_right _ _)
          have hafter := hrest.frees hf₁ (fun i hi hio => hdis i hio i hi rfl)
            (fun k hk hko => hdis' k hko k hk rfl)
          obtain ⟨h', hrun, hf⟩ :=
            ih (fun a k sub hmem => hfree a k sub (List.mem_cons_of_mem _ hmem)) _ hl' hlie
              (Nat.lt_of_succ_lt_succ hn) hnd hnd' hafter
          refine ⟨h', ?_, hf₁.trans hf⟩
          simp only [List.map_cons, List.head?_cons, Heap.freeAtoms, atom_eq hxh, ok_bind, hrun₁,
            atom_eq hx₁, hnext, hrun]

/-- `pdp_tree_free` gives back the cells of the tree. -/
theorem pdpTreeFree_frees {h₀ : Heap} {A : Lists} (hR : Rep h₀ A) {n l : Nat}
    {nodes : List (Owned (WordType × Word))} (hn : depths (eraseAll nodes) < n)
    (hl : TreeAt A l nodes) :
    FreesTree (Heap.pdpTreeFree n) h₀ l nodes := by
  induction n generalizing l nodes with
  | zero => exact absurd hn (Nat.not_lt_zero _)
  | succ n ih =>
      intro h hatoms hlists ha
      obtain ⟨hlnot, hlists⟩ := List.nodup_cons.mp hlists
      have hcell : h.lists.cells l = some (headerOf (nodes.map Owned.cell)) :=
        (ha.lists l List.mem_cons_self).trans (hR.lists_cell hl.seq)
      have hhead : h.header l = .ok (headerOf (nodes.map Owned.cell)) := by
        unfold Heap.header
        rw [hcell]
      have hlen : nodes.length < h.loopBound := by
        have hle := h.atoms.length_le_bound (hR.nodup l _ hl.seq) fun i hi => by
          obtain ⟨x, hx⟩ := hR.live hl.seq hi
          rw [ha.atoms i (cells_subset nodes hi), hx]
          rfl
        rw [List.length_map] at hle
        exact Nat.lt_succ_of_le hle
      obtain ⟨h₁, hrun, hf⟩ := freeAtoms_spec hR
        (fun a k sub hmem => ih (by have := depth_mem hmem; omega) (allLie_mem hl.lie hmem))
        [] hl.seq hl.lie hlen hatoms hlists
        (ha.mono (List.Subset.refl _) (List.subset_cons_self _ _))
      have hcell₁ : h₁.lists.cells l = some (headerOf (nodes.map Owned.cell)) := by
        rw [hf.lists, if_neg hlnot, hcell]
      have hfirst : (headerOf (nodes.map Owned.cell)).first = (nodes.map Owned.cell).head? := rfl
      refine ⟨(h₁.setHeader l ⟨0, none, none⟩).deallocList l, ?_, fun i => hf.atoms i, fun k => ?_⟩
      · simp only [Heap.pdpTreeFree, Heap.pdpTreeClear, hhead, ok_bind, hfirst, hrun]
      · have hwrite := h₁.lists.cells_write (a := ⟨0, none, none⟩) hcell₁
        have hlive : (h₁.lists.write l ⟨0, none, none⟩).cells l = some ⟨0, none, none⟩ := by
          rw [hwrite, Function.update_self]
        show ((h₁.lists.write l ⟨0, none, none⟩).dealloc l).cells k = _
        rw [Arena.cells_dealloc _ hlive, hwrite, Function.update_idem, Function.update_apply]
        by_cases hk : k = l
        · rw [if_pos hk, if_pos (hk ▸ List.mem_cons_self)]
        · rw [if_neg hk, hf.lists]
          simp only [List.mem_cons, hk, false_or]

end Free

end PureDataPacket
