/-
# `PureDataPacket.Tree.Grammar` — what the text of a tree is

`Ws`, `Token`, `Items` and `Tree` are the grammar, each as a relation between a
text and what is left of it.  White space may be any mix of blanks and comments;
a token goes on as far as it can.

A text has no zero in it; the string that holds it has one at its end.  Here is
also how the functions of the parser that take no part in the recursion go with
the grammar.

| | |
| :-- | :-- |
| `Ws` | white space and comments |
| `Token` | the text of a pure atom |
| `Tree` | the text of a tree |
| `Items` | the text of the atoms of a tree |
| `Ws.unique` | white space ends in one place |
| `skipWhitespace_spec` | `_skip_whitespace` goes on as far as it can |
-/
import PureDataPacket.Tree.Parser

namespace PureDataPacket

/-- White space and comments. -/
inductive Ws : List Char → List Char → Prop
  | nil {s : List Char} : Ws s s
  | blank {c : Char} {s t : List Char} (hc : isWhitespace c = true) (h : Ws s t) : Ws (c :: s) t
  | comment {body s t : List Char} (hbody : '\n' ∉ body) (h : Ws s t) :
      Ws ('#' :: (body ++ '\n' :: s)) t
  | lastComment {body : List Char} (hbody : '\n' ∉ body) : Ws ('#' :: body) []

/-- The text of a pure atom. -/
structure Token (s tok rest : List Char) : Prop where
  eq : s = tok ++ rest
  ne_nil : tok ≠ []
  head : tok.head? ≠ some '#'
  chars : ∀ c ∈ tok, isSeparator c = false
  maximal : ∀ c, rest.head? = some c → isSeparator c = true

section Grammar

variable {α : Type} (parsePureAtom : List Char → α)

mutual

/-- The text of a tree. -/
inductive Tree : List Char → List (Node α) → List Char → Prop
  | mk {s s₁ s₂ rest : List Char} {nodes : List (Node α)} (h₁ : Ws s ('(' :: s₁))
      (h : Items s₁ nodes s₂) (h₂ : Ws s₂ (')' :: rest)) : Tree s nodes rest

/-- The text of the atoms of a tree. -/
inductive Items : List Char → List (Node α) → List Char → Prop
  | nil {s : List Char} : Items s [] s
  | pure {s s₁ s₂ s₃ tok : List Char} {nodes : List (Node α)} (hws : Ws s s₁)
      (htok : Token s₁ tok s₂) (h : Items s₂ nodes s₃) :
      Items s (.pure (parsePureAtom tok) :: nodes) s₃
  | list {s s₁ s₂ : List Char} {sub nodes : List (Node α)} (hsub : Tree s sub s₁)
      (h : Items s₁ nodes s₂) : Items s (.list sub :: nodes) s₂

end

end Grammar

/-! ## White space -/

/-- Neither white space nor a comment begins here. -/
def NoWs (s : List Char) : Prop := ∀ c, s.head? = some c → isWhitespace c = false ∧ c ≠ '#'

theorem Ws.suffix {s t : List Char} (h : Ws s t) : t <:+ s := by
  induction h with
  | nil => exact List.suffix_rfl
  | blank _ _ ih => exact ih.trans (List.suffix_cons _ _)
  | @comment body s t _ _ ih =>
      refine ih.trans ⟨'#' :: (body ++ ['\n']), ?_⟩
      rw [List.cons_append, List.append_assoc]
      rfl
  | lastComment => exact List.nil_suffix

theorem Ws.trans {s t u : List Char} (h : Ws s t) (h' : Ws t u) : Ws s u := by
  induction h with
  | nil => exact h'
  | blank hc _ ih => exact .blank hc (ih h')
  | comment hbody _ ih => exact .comment hbody (ih h')
  | lastComment hbody =>
      cases h' with
      | nil => exact .lastComment hbody

/-- The end of a comment is where its line ends. -/
theorem comment_unique {b b' s s' : List Char} (hb : '\n' ∉ b) (hb' : '\n' ∉ b')
    (h : b ++ '\n' :: s = b' ++ '\n' :: s') : b = b' ∧ s = s' := by
  induction b generalizing b' with
  | nil =>
      cases b' with
      | nil => exact ⟨rfl, (List.cons.inj h).2⟩
      | cons c b' => exact absurd ((List.cons.inj h).1 ▸ List.mem_cons_self) hb'
  | cons c b ih =>
      cases b' with
      | nil => exact absurd ((List.cons.inj h).1 ▸ List.mem_cons_self) hb
      | cons c' b' =>
          obtain ⟨rfl, heq⟩ := List.cons.inj h
          obtain ⟨rfl, rfl⟩ := ih (fun hm => hb (List.mem_cons_of_mem _ hm))
            (fun hm => hb' (List.mem_cons_of_mem _ hm)) heq
          exact ⟨rfl, rfl⟩

/-- White space that has gone on as far as it can ends in one place. -/
theorem Ws.unique {s t u : List Char} (h : Ws s t) (ht : NoWs t) (h' : Ws s u) (hu : NoWs u) :
    t = u := by
  induction h with
  | nil =>
      cases h' with
      | nil => rfl
      | blank hc _ =>
          have := (ht _ rfl).1
          rw [hc] at this
          cases this
      | comment => exact absurd rfl (ht _ rfl).2
      | lastComment => exact absurd rfl (ht _ rfl).2
  | blank hc _ ih =>
      cases h' with
      | nil =>
          have := (hu _ rfl).1
          rw [hc] at this
          cases this
      | blank _ h' => exact ih ht h'
      | comment => cases hc
      | lastComment => cases hc
  | comment hbody h ih =>
      generalize hs : '#' :: _ = s at h'
      cases h' with
      | nil =>
          subst hs
          exact absurd rfl (hu _ rfl).2
      | blank hc _ =>
          obtain ⟨rfl, _⟩ := List.cons.inj hs
          cases hc
      | comment hbody' h' =>
          obtain ⟨_, rfl⟩ := comment_unique hbody hbody' (List.cons.inj hs).2
          exact ih ht h'
      | lastComment hbody' =>
          refine absurd ?_ hbody'
          rw [← (List.cons.inj hs).2]
          exact List.mem_append_right _ List.mem_cons_self
  | lastComment hbody =>
      generalize hs : '#' :: _ = s at h'
      cases h' with
      | nil =>
          subst hs
          exact absurd rfl (hu _ rfl).2
      | blank hc _ =>
          obtain ⟨rfl, _⟩ := List.cons.inj hs
          cases hc
      | comment hbody' h' =>
          refine absurd ?_ hbody
          rw [(List.cons.inj hs).2]
          exact List.mem_append_right _ List.mem_cons_self
      | lastComment => rfl

/-! ## The pointer in the string -/

/-- There is no zero in a text. -/
abbrev Text (s : List Char) : Prop := nul ∉ s

/-- The string that holds a text. -/
def cString (s : List Char) : CharPtr := s ++ [nul]

theorem text_suffix {s t : List Char} (h : t <:+ s) (hs : Text s) : Text t :=
  fun hm => hs (h.subset hm)

theorem text_tail {c : Char} {s : List Char} (hs : Text (c :: s)) : Text s :=
  fun hm => hs (List.mem_cons_of_mem _ hm)

-- in parentheses, so that `simp` does not take these two for definitional unfoldings
theorem tree_ok_bind {β γ : Type} (a : β) (f : β → Except TreeFault γ) :
    (Except.ok a >>= f) = f a := (rfl)

theorem skipRealWhitespace_spec {s : List Char} (hs : Text s) :
    ∃ t, skipRealWhitespace (cString s) = .ok (cString t) ∧ Ws s t ∧
      ∀ c, t.head? = some c → isWhitespace c = false := by
  induction s with
  | nil => exact ⟨[], rfl, .nil, fun c hc => by cases hc⟩
  | cons c s ih =>
      have hcons : cString (c :: s) = c :: cString s := rfl
      rw [hcons, skipRealWhitespace]
      cases hc : isWhitespace c with
      | true =>
          obtain ⟨t, hrun, hws, ht⟩ := ih (text_tail hs)
          exact ⟨t, hrun, .blank hc hws, ht⟩
      | false =>
          refine ⟨c :: s, rfl, .nil, fun c' hc' => ?_⟩
          cases hc'
          exact hc

theorem skipToNewline_spec {s : List Char} (hs : Text s) :
    ∃ t, skipToNewline (cString s) = .ok (cString t) ∧ Ws ('#' :: s) t ∧ t.length ≤ s.length := by
  suffices h : ∃ t, skipToNewline (cString s) = .ok (cString t) ∧ t.length ≤ s.length ∧
      ((t = [] ∧ '\n' ∉ s) ∨ ∃ body, '\n' ∉ body ∧ s = body ++ '\n' :: t) by
    obtain ⟨t, hrun, hlen, ⟨rfl, hs⟩ | ⟨body, hbody, rfl⟩⟩ := h
    · exact ⟨[], hrun, .lastComment hs, hlen⟩
    · exact ⟨t, hrun, .comment hbody .nil, hlen⟩
  induction s with
  | nil => exact ⟨[], rfl, Nat.le_refl _, Or.inl ⟨rfl, List.not_mem_nil⟩⟩
  | cons c s ih =>
      have hcons : cString (c :: s) = c :: cString s := rfl
      rw [hcons, skipToNewline]
      by_cases hnl : c = '\n'
      · subst hnl
        exact ⟨s, rfl, Nat.le_succ _, Or.inr ⟨[], List.not_mem_nil, rfl⟩⟩
      · have hright : ¬ isRightComment c = true := by
          unfold isRightComment
          rwa [decide_eq_true_eq]
        have hnul : c ≠ nul := fun he => hs (he ▸ List.mem_cons_self)
        rw [if_neg hright, if_neg hnul]
        obtain ⟨t, hrun, hlen, ⟨rfl, hs'⟩ | ⟨body, hbody, rfl⟩⟩ := ih (text_tail hs)
        · refine ⟨[], hrun, Nat.zero_le _, Or.inl ⟨rfl, ?_⟩⟩
          exact List.not_mem_cons_of_ne_of_not_mem (Ne.symm hnl) hs'
        · refine ⟨t, hrun, Nat.le_succ_of_le hlen, Or.inr ⟨c :: body, ?_, rfl⟩⟩
          exact List.not_mem_cons_of_ne_of_not_mem (Ne.symm hnl) hbody

theorem skipComment_spec {s : List Char} (hs : Text s) :
    ∃ t, skipComment (cString s) = .ok (cString t) ∧ Ws s t ∧
      (t.length < s.length ∨ t = s ∧ s.head? ≠ some '#') := by
  cases s with
  | nil => exact ⟨[], rfl, .nil, Or.inr ⟨rfl, fun h => by cases h⟩⟩
  | cons c s =>
      have hcons : cString (c :: s) = c :: cString s := rfl
      rw [hcons, skipComment]
      by_cases hc : c = '#'
      · subst hc
        obtain ⟨t, hrun, hws, hlen⟩ := skipToNewline_spec (text_tail hs)
        exact ⟨t, hrun, hws, Or.inl (Nat.lt_succ_of_le hlen)⟩
      · have hleft : ¬ isLeftComment c = true := by
          unfold isLeftComment
          rwa [decide_eq_true_eq]
        rw [if_neg hleft]
        refine ⟨c :: s, rfl, .nil, Or.inr ⟨rfl, fun h => hc ?_⟩⟩
        exact Option.some.inj h

theorem length_cString (s : List Char) : (cString s).length = s.length + 1 :=
  List.length_append

theorem skipWhitespaces_spec {n : Nat} {s : List Char} (hs : Text s) (hn : s.length < n) :
    ∃ t, skipWhitespaces n (cString s) = .ok (cString t) ∧ Ws s t ∧ NoWs t := by
  induction n generalizing s with
  | zero => exact absurd hn (Nat.not_lt_zero _)
  | succ n ih =>
      obtain ⟨t, hrun, hws, ht⟩ := skipRealWhitespace_spec hs
      have htext := text_suffix hws.suffix hs
      obtain ⟨u, hrun', hws', hu⟩ := skipComment_spec htext
      have hle := hws.suffix.length_le
      rcases hu with hlt | ⟨rfl, hhash⟩
      · obtain ⟨v, hrun'', hws'', hv⟩ := ih (text_suffix hws'.suffix htext) (by omega)
        refine ⟨v, ?_, hws.trans (hws'.trans hws''), hv⟩
        have hne : ¬ (cString u).length = (cString s).length := by
          rw [length_cString, length_cString]
          omega
        simp only [skipWhitespaces, hrun, hrun', tree_ok_bind, if_neg hne, hrun'']
      · have hnows : NoWs u := fun c hc => ⟨ht c hc, fun he => hhash (he ▸ hc)⟩
        by_cases hlen : (cString u).length = (cString s).length
        · refine ⟨u, ?_, hws, hnows⟩
          simp only [skipWhitespaces, hrun, hrun', tree_ok_bind, if_pos hlen]
        · rw [length_cString, length_cString] at hlen
          obtain ⟨v, hrun'', hws'', hv⟩ := ih htext (by omega)
          refine ⟨v, ?_, hws.trans hws'', hv⟩
          have hne : ¬ (cString u).length = (cString s).length := by
            rwa [length_cString, length_cString]
          simp only [skipWhitespaces, hrun, hrun', tree_ok_bind, if_neg hne, hrun'']

theorem skipWhitespace_spec {s : List Char} (hs : Text s) :
    ∃ t, skipWhitespace (cString s) = .ok (cString t) ∧ Ws s t ∧ NoWs t :=
  skipWhitespaces_spec hs (by rw [length_cString]; omega)

/-- Where the grammar needs white space to end, `_skip_whitespace` ends. -/
theorem skipWhitespace_eq {s t : List Char} (hs : Text s) (h : Ws s t) (ht : NoWs t) :
    skipWhitespace (cString s) = .ok (cString t) := by
  obtain ⟨u, hrun, hws, hu⟩ := skipWhitespace_spec hs
  rw [hrun, h.unique ht hws hu]

/-! ## Tokens -/

theorem pureChars_spec {s : List Char} (hs : Text s) :
    ∃ tok rest, pureChars (cString s) = .ok (tok, cString rest) ∧ s = tok ++ rest ∧
      (∀ c ∈ tok, isSeparator c = false) ∧ ∀ c, rest.head? = some c → isSeparator c = true := by
  induction s with
  | nil =>
      exact ⟨[], [], rfl, rfl, fun c hc => absurd hc List.not_mem_nil, fun c hc => by cases hc⟩
  | cons c s ih =>
      have hcons : cString (c :: s) = c :: cString s := rfl
      rw [hcons, pureChars]
      cases hc : isSeparator c with
      | true =>
          refine ⟨[], c :: s, rfl, rfl, fun c hc => absurd hc List.not_mem_nil, fun c' hc' => ?_⟩
          cases hc'
          exact hc
      | false =>
          obtain ⟨tok, rest, hrun, rfl, htok, hrest⟩ := ih (text_tail hs)
          refine ⟨c :: tok, rest, ?_, rfl, fun c' hc' => ?_, hrest⟩
          · simp only [Bool.false_eq_true, if_false, hrun, tree_ok_bind]
          · rcases List.mem_cons.mp hc' with rfl | hc'
            · exact hc
            · exact htok c' hc'

theorem token_unique {tok tok' rest rest' : List Char} (h : tok ++ rest = tok' ++ rest')
    (htok : ∀ c ∈ tok, isSeparator c = false) (htok' : ∀ c ∈ tok', isSeparator c = false)
    (hrest : ∀ c, rest.head? = some c → isSeparator c = true)
    (hrest' : ∀ c, rest'.head? = some c → isSeparator c = true) : tok = tok' ∧ rest = rest' := by
  induction tok generalizing tok' with
  | nil =>
      cases tok' with
      | nil => exact ⟨rfl, h⟩
      | cons c tok' =>
          have hc := hrest c (by rw [show rest = (c :: tok') ++ rest' from h]; rfl)
          rw [htok' c List.mem_cons_self] at hc
          cases hc
  | cons c tok ih =>
      cases tok' with
      | nil =>
          have hc := hrest' c (by rw [← show (c :: tok) ++ rest = rest' from h]; rfl)
          rw [htok c List.mem_cons_self] at hc
          cases hc
      | cons c' tok' =>
          obtain ⟨rfl, heq⟩ := List.cons.inj h
          obtain ⟨rfl, rfl⟩ := ih heq (fun c hc => htok c (List.mem_cons_of_mem _ hc))
            fun c hc => htok' c (List.mem_cons_of_mem _ hc)
          exact ⟨rfl, rfl⟩

theorem pureChars_eq {s tok rest : List Char} (hs : Text s) (h : Token s tok rest) :
    pureChars (cString s) = .ok (tok, cString rest) := by
  obtain ⟨tok', rest', hrun, hs', htok', hrest'⟩ := pureChars_spec hs
  obtain ⟨rfl, rfl⟩ := token_unique (h.eq.symm.trans hs') h.chars htok' h.maximal hrest'
  exact hrun

end PureDataPacket
