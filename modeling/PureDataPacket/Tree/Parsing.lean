/-
# `PureDataPacket.Tree.Parsing` — the parser and the grammar

The parser comes to an end, does not read behind the string, and what it returns
derives from the grammar: this is one induction on how deep the calls may go.
That it returns a tree whenever there is a derivation is an induction on the
derivation.  Along with the first goes what is in use: the cells of the tree on
success, and what was in use before on failure.

| | |
| :-- | :-- |
| `TreeCalls` | the recursive call that `pdp_atom_from_cstring` makes |
| `tree_run` | a tree is read when its atoms are |
| `items_complete` | by induction on the derivation |
-/
import PureDataPacket.Tree.Cells

namespace PureDataPacket

section Parsing

variable {α : Type} {f : List Char → α}

/-! ## What the parser returns derives from the grammar -/

/-- What `pdp_atom_from_cstring` may return.  Null means that a tree ends here, or
that the text does. -/
def AtomOut (f : List Char → α) (s : List Char) (p : TreePool) :
    Option (Owned α) × CharPtr × TreePool → Prop
  | (some a, next, p') => ∃ rest, next = cString rest ∧ rest <:+ s ∧ rest.length < s.length ∧
      (∀ nodes t, Items f rest nodes t → Items f s (a.erase :: nodes) t) ∧
      Grew p p' a.atomIds a.listIds
  | (none, next, p') => ∃ rest, next = cString rest ∧ rest <:+ s ∧ SameCells p p' ∧
      (rest = [] ∨ ∃ t, rest = ')' :: t ∧ Ws s rest)

/-- What the loop of `pdp_tree_from_cstring` may return. -/
def AtomsOut (f : List Char → α) (s : List Char) (nodes : List (Owned α)) (p : TreePool) :
    List (Owned α) × CharPtr × TreePool → Prop
  | (all, next, p') => ∃ new rest mid, all = nodes ++ new ∧ next = cString rest ∧ rest <:+ s ∧
      Items f s (eraseAll new) mid ∧ (rest = [] ∨ ∃ t, rest = ')' :: t ∧ Ws mid rest) ∧
      Grew p p' (allAtomIds new) (allListIds new)

/-- What `pdp_tree_from_cstring` may return.  Null after a left parenthesis means
that the text has come to its end. -/
def TreeOut (f : List Char → α) (s : List Char) (p : TreePool) :
    Option (Nat × List (Owned α)) × CharPtr × TreePool → Prop
  | (some (l, nodes), next, p') => ∃ rest, next = cString rest ∧ rest <:+ s ∧
      rest.length < s.length ∧ Tree f s (eraseAll nodes) rest ∧
      Grew p p' (allAtomIds nodes) (l :: allListIds nodes)
  | (none, next, p') => ∃ rest, next = cString rest ∧ rest <:+ s ∧ SameCells p p' ∧
      ((∃ t, Ws s ('(' :: t)) → rest = [])

theorem deref_cString_nil : deref (cString []) = .ok nul := rfl

theorem deref_cString_cons (c : Char) (s : List Char) : deref (cString (c :: s)) = .ok c := rfl

theorem tail_cString_cons (c : Char) (s : List Char) : (cString (c :: s)).tail = cString s := rfl

theorem ne_nul {c : Char} {s t : List Char} (hs : Text s) (h : c :: t <:+ s) : c ≠ nul :=
  fun he => hs (h.subset (he ▸ List.mem_cons_self))

/-- The recursive call that `pdp_atom_from_cstring` makes. -/
def TreeCalls (f : List Char → α) (n : Nat) : Prop :=
  ∀ {s : List Char} {p : TreePool}, Text s → 3 * s.length + 1 ≤ n →
    ∃ out, treeFromCstring f n (cString s) p = .ok out ∧ TreeOut f s p out

theorem atomFromCstring_sound {n : Nat} (hn : TreeCalls f n) {s : List Char} {p : TreePool}
    (hs : Text s) (hlen : 3 * s.length + 2 ≤ n + 1) :
    ∃ out, atomFromCstring f (n + 1) (cString s) p = .ok out ∧ AtomOut f s p out := by
  obtain ⟨t, hskip, hws, hnows⟩ := skipWhitespace_spec hs
  have htext := text_suffix hws.suffix hs
  have hle := hws.suffix.length_le
  cases t with
  | nil =>
      refine ⟨(none, cString [], p), ?_, [], rfl, hws.suffix, ⟨rfl, rfl⟩, Or.inl rfl⟩
      simp only [atomFromCstring, hskip, tree_ok_bind, deref_cString_nil]
      rfl
  | cons c t =>
      have hc := ne_nul hs hws.suffix
      by_cases hright : c = ')'
      · subst hright
        refine ⟨(none, cString (')' :: t), p), ?_, _, rfl, hws.suffix, ⟨rfl, rfl⟩,
          Or.inr ⟨t, rfl, hws⟩⟩
        simp only [atomFromCstring, hskip, tree_ok_bind, deref_cString_cons]
        rfl
      · have hend : ¬ (decide (c = nul) || isRightSeparator c) = true := by
          simp only [isRightSeparator, hc, hright, decide_false, Bool.or_self, Bool.false_eq_true,
            not_false_iff]
        by_cases hleft : c = '('
        · subst hleft
          have hsep : isLeftSeparator '(' = true := rfl
          obtain ⟨⟨l, next, p'⟩, hrun, hout⟩ := hn (p := p) htext (by omega)
          cases l with
          | none =>
              obtain ⟨rest, rfl, hsuf, hsame, hnil⟩ := hout
              refine ⟨(none, cString rest, p'), ?_, rest, rfl, hsuf.trans hws.suffix, hsame,
                Or.inl (hnil ⟨t, .nil⟩)⟩
              simp only [atomFromCstring, hskip, tree_ok_bind, deref_cString_cons, if_neg hend,
                if_pos hsep, hrun]
          | some x =>
              obtain ⟨l, nodes⟩ := x
              obtain ⟨rest, rfl, hsuf, hlt, htree, hgrew⟩ := hout
              refine ⟨(some (.list p'.atomNew.1 l nodes), cString rest, p'.atomNew.2), ?_, rest,
                rfl, hsuf.trans hws.suffix, by omega, fun nodes' u hitems => ?_, ?_⟩
              · simp only [atomFromCstring, hskip, tree_ok_bind, deref_cString_cons, if_neg hend,
                  if_pos hsep, hrun]
              · obtain ⟨h₁, h, h₂⟩ := htree
                exact .list (.mk (hws.trans h₁) h h₂) hitems
              · have := hgrew.trans (grew_atomNew p')
                rwa [List.append_nil] at this
        · have hsep : ¬ isLeftSeparator c = true := by
            unfold isLeftSeparator
            rwa [decide_eq_true_eq]
          obtain ⟨tok, rest, hchars, heq, htok, hrest⟩ := pureChars_spec htext
          have hblank := (hnows c rfl).1
          have hnsep : isSeparator c = false := by
            simp only [isSeparator, isTerminator, isLeftSeparator, isRightSeparator, hc, hleft,
              hright, hblank, decide_false, Bool.or_self]
          have hne : tok ≠ [] := by
            rintro rfl
            have := hrest c (by rw [← show c :: t = rest from heq]; rfl)
            rw [hnsep] at this
            cases this
          have hhead : tok.head? ≠ some '#' := by
            obtain ⟨d, tok, rfl⟩ := List.exists_cons_of_ne_nil hne
            obtain ⟨rfl, _⟩ := List.cons.inj heq
            exact fun he => (hnows c rfl).2 (Option.some.inj he)
          have hpos := List.length_pos_iff.mpr hne
          have hlt : rest.length < (c :: t).length := by
            rw [heq, List.length_append]
            omega
          refine ⟨(some (.pure p.atomNew.1 (f tok)), cString rest, p.atomNew.2), ?_, rest, rfl,
            .trans ⟨tok, heq.symm⟩ hws.suffix, by omega, fun nodes u hitems => ?_, grew_atomNew p⟩
          · simp only [atomFromCstring, hskip, tree_ok_bind, deref_cString_cons, if_neg hend,
              if_neg hsep, hchars, if_neg hne]
          · exact .pure hws ⟨heq, hne, hhead, htok, hrest⟩ hitems

theorem atomsFromCstring_sound {m : Nat} (hcalls : ∀ k, k + 1 < m → TreeCalls f k)
    {s : List Char} {nodes : List (Owned α)} {p : TreePool} (hs : Text s) (hlen : 3 * s.length + 3 ≤ m) :
    ∃ out, atomsFromCstring f m (cString s) nodes p = .ok out ∧ AtomsOut f s nodes p out := by
  induction m generalizing s nodes p with
  | zero => omega
  | succ m ih =>
      obtain ⟨k, rfl⟩ : ∃ k, m = k + 1 := ⟨m - 1, by omega⟩
      obtain ⟨⟨o, next, p'⟩, hrun, hout⟩ :=
        atomFromCstring_sound (hcalls k (by omega)) (p := p) hs (by omega)
      cases o with
      | none =>
          obtain ⟨rest, rfl, hsuf, hsame, hend⟩ := hout
          refine ⟨(nodes, cString rest, p'), ?_, [], rest, s, (List.append_nil nodes).symm, rfl,
            hsuf, .nil, hend, ?_⟩
          · simp only [atomsFromCstring, hrun, tree_ok_bind]
          · refine ⟨fun i => ?_, fun i => ?_, fun _ h => absurd h List.not_mem_nil,
              fun _ h => absurd h List.not_mem_nil, List.nodup_nil, List.nodup_nil⟩
            · exact (congrFun hsame.1 i).trans (if_neg List.not_mem_nil).symm
            · exact (congrFun hsame.2 i).trans (if_neg List.not_mem_nil).symm
      | some a =>
          obtain ⟨rest, rfl, hsuf, hlt, hitem, hgrew⟩ := hout
          obtain ⟨⟨all, next, p''⟩, hrun', new, rest', mid, hall, rfl, hsuf', hitems, hend, hgrew'⟩ :=
            ih (fun k hk => hcalls k (by omega)) (text_suffix hsuf hs) (by omega)
          refine ⟨(all, cString rest', p''), ?_, a :: new, rest', mid, ?_, rfl, hsuf'.trans hsuf,
            hitem _ _ hitems, hend, hgrew.trans hgrew'⟩
          · rw [atomsFromCstring, hrun, tree_ok_bind]
            exact hrun'
          · rw [hall, List.append_assoc]
            rfl

theorem treeCalls (f : List Char → α) (n : Nat) : TreeCalls f n := by
  induction n using Nat.strongRecOn with
  | ind n ih =>
      intro s p hs hlen
      cases n with
      | zero => omega
      | succ n =>
          obtain ⟨t, hskip, hws, hnows⟩ := skipWhitespace_spec hs
          have htext := text_suffix hws.suffix hs
          have hle := hws.suffix.length_le
          have hnew := grew_listNew p
          -- nothing but the new list has been made
          have hfail : ∀ c u, t = u → deref (cString u) = .ok c → ¬ isLeftSeparator c = true →
              ∃ out, treeFromCstring f (n + 1) (cString s) p = .ok out ∧ TreeOut f s p out := by
            rintro c u rfl hc hsep
            have hlive : Live p.listNew.2 (allAtomIds ([] : List (Owned α)))
                (p.listNew.1 :: allListIds ([] : List (Owned α))) := hnew.live
            obtain ⟨p', hfree, hfrees⟩ := pdpTreeFree_spec hlive
            refine ⟨(none, cString t, p'), ?_, t, rfl, hws.suffix, hnew.back hfrees, ?_⟩
            · have hnot : (!isLeftSeparator c) = true := by rw [eq_false_of_ne_true hsep]; rfl
              simp only [treeFromCstring, hskip, tree_ok_bind, hc, if_pos hnot, hfree]
            · rintro ⟨u, hu⟩
              have hnows' : NoWs ('(' :: u) := by
                intro c' hc'
                cases hc'
                exact ⟨rfl, by decide⟩
              obtain rfl := hws.unique hnows hu hnows'
              cases hc
              exact absurd rfl hsep
          cases t with
          | nil => exact hfail nul [] rfl rfl (by decide)
          | cons c t =>
              by_cases hleft : c = '('
              swap
              · refine hfail c (c :: t) rfl rfl ?_
                unfold isLeftSeparator
                rwa [decide_eq_true_eq]
              subst hleft
              rw [List.length_cons] at hle
              obtain ⟨m, rfl⟩ : ∃ m, n = m + 3 := ⟨n - 3, by omega⟩
              have hatoms : ∃ out, atomsFromCstring f (m + 3) (cString t) [] p.listNew.2 = .ok out ∧
                  AtomsOut f t [] p.listNew.2 out :=
                atomsFromCstring_sound (fun k hk => ih k (by omega)) (text_tail htext) (by omega)
              obtain ⟨⟨all, next, p'⟩, hrun, new, rest, mid, hall, rfl, hsuf, hitems, hend, hgrew⟩ :=
                hatoms
              obtain rfl : new = all := hall.symm
              have htail : t <:+ s := .trans (List.suffix_cons _ t) hws.suffix
              have hall : Grew p p' (allAtomIds new) (p.listNew.1 :: allListIds new) :=
                hnew.trans hgrew
              have hstart : (!isLeftSeparator '(') = false := rfl
              rcases hend with rfl | ⟨u, rfl, hws'⟩
              · -- the text has come to its end
                obtain ⟨p'', hfree, hfrees⟩ := pdpTreeFree_spec hall.live
                refine ⟨(none, cString [], p''), ?_, [], rfl, List.nil_suffix, hall.back hfrees,
                  fun _ => rfl⟩
                have hskip' : skipWhitespace (cString []) = .ok (cString []) := rfl
                have hnot : (!isRightSeparator nul) = true := rfl
                simp only [treeFromCstring, hskip, tree_ok_bind, deref_cString_cons, hstart,
                  Bool.false_eq_true, if_false, tail_cString_cons, hrun, hskip',
                  deref_cString_nil, if_pos hnot, hfree]
              · have hskip' : skipWhitespace (cString (')' :: u)) = .ok (cString (')' :: u)) := by
                  refine skipWhitespace_eq (text_suffix (hsuf.trans htail) hs) .nil ?_
                  intro c' hc'
                  cases hc'
                  exact ⟨rfl, by decide⟩
                have hshort : u.length < s.length := by
                  have := hsuf.length_le
                  rw [List.length_cons] at this
                  omega
                refine ⟨(some (p.listNew.1, new), cString u, p'), ?_, u, rfl,
                  .trans (List.suffix_cons _ u) (hsuf.trans htail), hshort,
                  .mk hws hitems hws', hall⟩
                have hstop : (!isRightSeparator ')') = false := rfl
                simp only [treeFromCstring, hskip, tree_ok_bind, deref_cString_cons, hstart,
                  Bool.false_eq_true, if_false, tail_cString_cons, hrun, hskip',
                  hstop]

/-! ## The parser returns what derives from the grammar -/

theorem noWs_token {s tok rest : List Char} (h : Token s tok rest) : NoWs s := by
  obtain ⟨c, tok, rfl⟩ := List.exists_cons_of_ne_nil h.ne_nil
  intro c' hc'
  rw [h.eq] at hc'
  obtain rfl : c = c' := Option.some.inj hc'
  have hsep := h.chars c List.mem_cons_self
  refine ⟨?_, fun he => h.head (he ▸ rfl)⟩
  unfold isSeparator at hsep
  exact (Bool.or_eq_false_iff.mp hsep).2

theorem noWs_paren {c : Char} (hc : c = '(' ∨ c = ')') (s : List Char) : NoWs (c :: s) := by
  intro c' hc'
  cases hc'
  rcases hc with rfl | rfl
  · exact ⟨rfl, by decide⟩
  · exact ⟨rfl, by decide⟩

theorem atom_pure_run {n : Nat} {s s₁ s₂ tok : List Char} {p : TreePool} (hs : Text s)
    (hws : Ws s s₁) (htok : Token s₁ tok s₂) :
    atomFromCstring f (n + 1) (cString s) p =
      .ok (some (.pure p.atomNew.1 (f tok)), cString s₂, p.atomNew.2) := by
  have hskip := skipWhitespace_eq hs hws (noWs_token htok)
  have htext := text_suffix hws.suffix hs
  have hchars := pureChars_eq htext htok
  obtain ⟨c, tok', rfl⟩ := List.exists_cons_of_ne_nil htok.ne_nil
  have hsep := htok.chars c List.mem_cons_self
  have hderef : deref (cString s₁) = .ok c := by
    rw [htok.eq]
    rfl
  unfold isSeparator isTerminator at hsep
  simp only [Bool.or_eq_false_iff] at hsep
  obtain ⟨⟨⟨hnul, hleft⟩, hright⟩, _⟩ := hsep
  simp only [atomFromCstring, hskip, tree_ok_bind, hderef, hnul, hleft, hright, Bool.or_self,
    Bool.false_eq_true, if_false, hchars, List.cons_ne_nil]

theorem tree_run {n : Nat} {s s₁ rest : List Char} {nodes : List (Node α)} (hs : Text s)
    (hws : Ws s ('(' :: s₁)) (hrest : Text (')' :: rest))
    (h : ∀ p, ∃ os p', atomsFromCstring f n (cString s₁) [] p =
      .ok (os, cString (')' :: rest), p') ∧ eraseAll os = nodes) (p : TreePool) :
    ∃ l os p', treeFromCstring f (n + 1) (cString s) p =
      .ok (some (l, os), cString rest, p') ∧ eraseAll os = nodes := by
  obtain ⟨os, p', hrun, herase⟩ := h p.listNew.2
  refine ⟨p.listNew.1, os, p', ?_, herase⟩
  have hskip := skipWhitespace_eq hs hws (noWs_paren (Or.inl rfl) s₁)
  have hskip' := skipWhitespace_eq hrest .nil (noWs_paren (Or.inr rfl) rest)
  have hstart : (!isLeftSeparator '(') = false := rfl
  have hstop : (!isRightSeparator ')') = false := rfl
  simp only [treeFromCstring, hskip, tree_ok_bind, deref_cString_cons, hstart, Bool.false_eq_true,
    if_false, tail_cString_cons, hrun, hskip', hstop]

theorem atom_list_run {n : Nat} {s s₁ rest : List Char} {nodes : List (Node α)} (hs : Text s)
    (hws : Ws s ('(' :: s₁)) (hrest : Text (')' :: rest))
    (h : ∀ p, ∃ os p', atomsFromCstring f n (cString s₁) [] p =
      .ok (os, cString (')' :: rest), p') ∧ eraseAll os = nodes) (p : TreePool) :
    ∃ o p', atomFromCstring f (n + 2) (cString s) p = .ok (some o, cString rest, p') ∧
      o.erase = .list nodes := by
  have htext := text_suffix hws.suffix hs
  obtain ⟨l, os, p', hrun, herase⟩ := tree_run htext .nil hrest h p
  refine ⟨.list p'.atomNew.1 l os, p'.atomNew.2, ?_, ?_⟩
  · have hskip := skipWhitespace_eq hs hws (noWs_paren (Or.inl rfl) s₁)
    have hend : (decide ('(' = nul) || isRightSeparator '(') = false := rfl
    have hsep : isLeftSeparator '(' = true := rfl
    simp only [atomFromCstring, hskip, tree_ok_bind, deref_cString_cons, hend, Bool.false_eq_true,
      if_false, hsep, if_true, hrun]
  · rw [Owned.erase, herase]

theorem atom_end_run {n : Nat} {s rest : List Char} (hs : Text s) (hws : Ws s (')' :: rest))
    (p : TreePool) :
    atomFromCstring f (n + 1) (cString s) p = .ok (none, cString (')' :: rest), p) := by
  have hskip := skipWhitespace_eq hs hws (noWs_paren (Or.inr rfl) rest)
  have hend : (decide (')' = nul) || isRightSeparator ')') = true := rfl
  simp only [atomFromCstring, hskip, tree_ok_bind, deref_cString_cons, hend, if_true]

mutual

theorem tree_suffix : ∀ {s rest : List Char} {nodes : List (Node α)}, Tree f s nodes rest →
    (')' :: rest) <:+ s
  | _, _, _, .mk h₁ h h₂ =>
      h₂.suffix.trans ((items_suffix h).trans (.trans (List.suffix_cons _ _) h₁.suffix))

theorem items_suffix : ∀ {s rest : List Char} {nodes : List (Node α)}, Items f s nodes rest →
    rest <:+ s
  | _, _, _, .nil => List.suffix_rfl
  | _, _, _, .pure hws htok h =>
      (items_suffix h).trans (.trans ⟨_, htok.eq.symm⟩ hws.suffix)
  | _, _, _, .list hsub h =>
      (items_suffix h).trans (.trans (List.suffix_cons _ _) (tree_suffix hsub))

end

/-- With enough fuel the loop adds the atoms `nodes` of a tree that ends before
`rest`. -/
def AddsItems (f : List Char → α) (s : List Char) (nodes : List (Node α)) (rest : List Char) :
    Prop :=
  ∀ n, 3 * s.length + 3 ≤ n → ∀ (acc : List (Owned α)) (p : TreePool), ∃ os p',
    atomsFromCstring f n (cString s) acc p = .ok (acc ++ os, cString (')' :: rest), p') ∧
      eraseAll os = nodes

section AddsItems

variable {s s₁ s₂ s₃ rest tok : List Char} {sub nodes : List (Node α)}

theorem addsItems_nil (hws : Ws s (')' :: rest)) (hs : Text s) : AddsItems f s [] rest := by
  intro n hn acc p
  obtain ⟨n, rfl⟩ : ∃ m, n = m + 2 := ⟨n - 2, by omega⟩
  refine ⟨[], p, ?_, rfl⟩
  simp only [atomsFromCstring, atom_end_run hs hws, tree_ok_bind, List.append_nil]

theorem AddsItems.pure (h : AddsItems f s₂ nodes rest) (hws : Ws s s₁) (htok : Token s₁ tok s₂)
    (hs : Text s) : AddsItems f s (.pure (f tok) :: nodes) rest := by
  intro n hn acc p
  obtain ⟨n, rfl⟩ : ∃ m, n = m + 2 := ⟨n - 2, by omega⟩
  have hle := hws.suffix.length_le
  have hpos := List.length_pos_iff.mpr htok.ne_nil
  rw [htok.eq, List.length_append] at hle
  obtain ⟨os, p', hrun, herase⟩ := h (n + 1) (by omega) (acc ++ [.pure p.atomNew.1 (f tok)])
    p.atomNew.2
  refine ⟨.pure p.atomNew.1 (f tok) :: os, p', ?_, ?_⟩
  · rw [atomsFromCstring, atom_pure_run hs hws htok, tree_ok_bind]
    rw [List.append_assoc] at hrun
    exact hrun
  · rw [eraseAll, herase, Owned.erase]

theorem AddsItems.list (h : AddsItems f s₃ nodes rest) (hsub : AddsItems f s₁ sub s₃)
    (hws : Ws s ('(' :: s₁)) (hsuf : (')' :: s₃) <:+ s₁) (hs : Text s) :
    AddsItems f s (.list sub :: nodes) rest := by
  intro n hn acc p
  obtain ⟨n, rfl⟩ : ∃ m, n = m + 3 := ⟨n - 3, by omega⟩
  have hle := hws.suffix.length_le
  have hle' := hsuf.length_le
  rw [List.length_cons] at hle hle'
  have htext := text_suffix hsuf (text_tail (text_suffix hws.suffix hs))
  obtain ⟨o, p₁, hrun₁, herase₁⟩ := atom_list_run hs hws htext
    (fun p => hsub n (by omega) [] p) p
  obtain ⟨os, p', hrun, herase⟩ := h (n + 2) (by omega) (acc ++ [o]) p₁
  refine ⟨o :: os, p', ?_, ?_⟩
  · rw [atomsFromCstring, hrun₁, tree_ok_bind]
    rw [List.append_assoc] at hrun
    exact hrun
  · rw [eraseAll, herase, herase₁]

end AddsItems

/-- The induction is on the derivation; a subtree is one of its parts. -/
theorem items_complete : ∀ {s r rest : List Char} {nodes : List (Node α)},
    Items f s nodes r → Ws r (')' :: rest) → Text s → AddsItems f s nodes rest
  | _, _, _, _, .nil, hws, hs => addsItems_nil hws hs
  | _, _, _, _, .pure hws' htok h, hws, hs =>
      have htext := text_suffix (.trans ⟨_, htok.eq.symm⟩ hws'.suffix) hs
      (items_complete h hws htext).pure hws' htok hs
  | _, _, _, _, .list (.mk h₁ hsub h₂) h, hws, hs =>
      have htext := text_tail (text_suffix h₁.suffix hs)
      have hsuf := h₂.suffix.trans (items_suffix hsub)
      have htext' := text_tail (text_suffix hsuf htext)
      (items_complete h hws htext').list (items_complete hsub h₂ htext) h₁ hsuf hs

theorem tree_complete {s rest : List Char} {nodes : List (Node α)} (h : Tree f s nodes rest)
    (hs : Text s) (p : TreePool) :
    ∃ l os p', pdpTreeFromCstring f (cString s) p = .ok (some (l, os), cString rest, p') ∧
      eraseAll os = nodes := by
  obtain ⟨h₁, hsub, h₂⟩ := h
  have htext := text_tail (text_suffix h₁.suffix hs)
  have hle := h₁.suffix.length_le
  rw [List.length_cons] at hle
  unfold pdpTreeFromCstring
  refine tree_run hs h₁ (text_suffix (h₂.suffix.trans (items_suffix hsub)) htext) (fun p => ?_) p
  exact items_complete hsub h₂ htext _ (by rw [length_cString]; omega) [] p

/-- `pdp_tree_from_cstring` returns a tree exactly when a prefix of the text is
one; this is then the only one.  It has made the lists and the atoms of the tree,
or, if it returns null, none that are still in use. -/
theorem pdpTreeFromCstring_spec (f : List Char → α) {s : List Char} (hs : Text s) (p : TreePool) :
    (∃ l nodes rest p', pdpTreeFromCstring f (cString s) p =
        .ok (some (l, nodes), cString rest, p') ∧
      Tree f s (eraseAll nodes) rest ∧ (∀ nodes' rest', Tree f s nodes' rest' →
        nodes' = eraseAll nodes ∧ rest' = rest) ∧
      Grew p p' (allAtomIds nodes) (l :: allListIds nodes)) ∨
    (∃ next p', pdpTreeFromCstring f (cString s) p = .ok (none, next, p') ∧
      (∀ nodes rest, ¬ Tree f s nodes rest) ∧ SameCells p p') := by
  have hcalls := treeCalls f (3 * (cString s).length + 1) (p := p) hs
    (by rw [length_cString]; omega)
  obtain ⟨⟨out, next, p'⟩, hrun, hout⟩ := hcalls
  have hcomplete : ∀ nodes' rest', Tree f s nodes' rest' → ∃ l os,
      out = some (l, os) ∧ next = cString rest' ∧ eraseAll os = nodes' := by
    intro nodes' rest' htree
    obtain ⟨l, os, p'', hrun', herase⟩ := tree_complete htree hs p
    have heq := hrun.symm.trans hrun'
    injection heq with heq
    injection heq with hfst hsnd
    exact ⟨l, os, hfst, congrArg Prod.fst hsnd, herase⟩
  cases out with
  | none =>
      obtain ⟨rest, _, _, hsame, _⟩ := hout
      refine Or.inr ⟨next, p', hrun, fun nodes rest htree => ?_, hsame⟩
      obtain ⟨l, os, hnone, _⟩ := hcomplete nodes rest htree
      cases hnone
  | some x =>
      obtain ⟨l, nodes⟩ := x
      obtain ⟨rest, rfl, _, _, htree, hgrew⟩ := hout
      refine Or.inl ⟨l, nodes, rest, p', hrun, htree, fun nodes' rest' htree' => ?_, hgrew⟩
      obtain ⟨l', os, hsome, hnext, rfl⟩ := hcomplete nodes' rest' htree'
      cases hsome
      exact ⟨rfl, (List.append_cancel_right hnext).symm⟩

/-- An inner tree that is not closed. -/
theorem pdpTreeFromCstring_spec_open :
    let s := "(a (b # c)".toList
    let p : TreePool := ⟨.empty, .empty⟩
    (∃ l nodes rest p', pdpTreeFromCstring id (cString s) p =
        .ok (some (l, nodes), cString rest, p') ∧
      Tree id s (eraseAll nodes) rest ∧ (∀ nodes' rest', Tree id s nodes' rest' →
        nodes' = eraseAll nodes ∧ rest' = rest) ∧
      Grew p p' (allAtomIds nodes) (l :: allListIds nodes)) ∨
    (∃ next p', pdpTreeFromCstring id (cString s) p = .ok (none, next, p') ∧
      (∀ nodes rest, ¬ Tree id s nodes rest) ∧ SameCells p p') :=
  pdpTreeFromCstring_spec id (by decide) ⟨.empty, .empty⟩

end Parsing

end PureDataPacket
