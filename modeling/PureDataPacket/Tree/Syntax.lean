/-
# `PureDataPacket.Tree.Syntax` — trees that have the shape of another tree

`pdp_tree_check_syntax` goes through a tree and its syntax with two cursors.  At an
ellipsis the cursor in the syntax goes back to the first element of its level.
`Matches` says what the syntax means: a level is matched element by element, once or,
with an ellipsis at its end, any number of times.

| | |
| :-- | :-- |
| `Matches` | the second tree is one that the first one describes |
| `SyntaxAtom` | where an ellipsis may stand |
| `Decides` | what is known of the atoms of a list |
| `checkAtoms_once` | a level without an ellipsis, from some cursor on |
| `checkLevel_iff` | a level accepts what it describes |
| `checkAtom_pure` | what is expected is no list |
-/
import PureDataPacket.Kernel.Symbol
import PureDataPacket.Tree.Printer
import PureDataPacket.Lib.Repetition

namespace PureDataPacket

section Syntax

variable {F : Type}

/-! ## The check -/

/-- `pdp_gensym("...")`. -/
def symEllipsis : Symbol := ['.', '.', '.']

/-- An atom with the symbol `...`. -/
def isEllipsis : Node (PureWord F) → Bool
  | .pure (.symbol name) => name = symEllipsis
  | _ => false

/-- The name of a type, for the types that have one. -/
def typeName : Node (PureWord F) → Option Symbol
  | .pure (.int _) => some ['i', 'n', 't']
  | .pure (.float _) => some ['f', 'l', 'o', 'a', 't']
  | .pure (.symbol _) => some ['s', 'y', 'm', 'b', 'o', 'l']
  | .pure (.packet _) => some ['p', 'a', 'c', 'k', 'e', 't']
  | .list _ => some ['l', 'i', 's', 't']
  | _ => none

/-- `checkatom`: where the cursor `sa` is when an atom is looked at, with `none` for
"ellipsis at start of list".  It is rewound once at most, since after that it is at the start. -/
def rewind (tree : List (Node (PureWord F))) (sa : Nat) : Option Nat :=
  if tree[sa]?.any isEllipsis then
    if sa = 0 then none
    else if tree[0]?.any isEllipsis then none
    else some 0
  else some sa

/-- An empty list: the syntax is empty, or its last element is an ellipsis. -/
def checkEmpty (tree : List (Node (PureWord F))) : Bool :=
  tree.isEmpty || tree.getLast?.any isEllipsis

mutual

/-- The `switch`, for an atom and what is expected. -/
def checkAtom : Node (PureWord F) → Node (PureWord F) → Bool
  | .list nodes, .list tree =>
      if nodes.isEmpty then checkEmpty tree else checkAtoms tree nodes 0
  | .pure _, .list _ => false
  | la, .pure (.symbol name) => name = symWildcard || typeName la = some name
  | _, .pure _ => false

/-- The loop over both lists, and what is decided after it. -/
def checkAtoms (tree : List (Node (PureWord F))) : List (Node (PureWord F)) → Nat → Bool
  | [], sa => tree[sa]?.all isEllipsis
  | la :: next, sa =>
      match tree[sa]? with
      | none => false
      | some _ =>
          match rewind tree sa with
          | none => false
          | some sa =>
              match tree[sa]? with
              | none => false
              | some s => checkAtom la s && checkAtoms tree next (sa + 1)

end

/-- `pdp_tree_check_syntax`. -/
def pdpTreeCheckSyntax (list tree : List (Node (PureWord F))) : Bool :=
  if list.isEmpty then checkEmpty tree else checkAtoms tree list 0

/-! ## The language of a syntax -/

def ellipsis : Node (PureWord F) := .pure (.symbol symEllipsis)

/-- The second tree is one that the first one describes. -/
inductive Matches : Node (PureWord F) → Node (PureWord F) → Prop
  | type {name : Symbol} {a : Node (PureWord F)} (h : typeName a = some name) :
      Matches (.pure (.symbol name)) a
  | any (a : Node (PureWord F)) : Matches (.pure (.symbol symWildcard)) a
  | once {s l : List (Node (PureWord F))} (h : List.Forall₂ Matches s l) :
      Matches (.list s) (.list l)
  | many {s l : List (Node (PureWord F))} {n : Nat} (h : List.Forall₂ Matches (copiesOf n s) l) :
      Matches (.list (s ++ [ellipsis])) (.list l)

mutual

/-- In all levels, an ellipsis is the last element and not the first one. -/
def SyntaxAtom : Node (PureWord F) → Prop
  | .pure _ => True
  | .list tree => SyntaxFrom true tree

/-- In a level of which there is this rest. -/
def SyntaxFrom : Bool → List (Node (PureWord F)) → Prop
  | _, [] => True
  | first, a :: tree =>
      (isEllipsis a = true → tree = [] ∧ first = false) ∧ SyntaxAtom a ∧ SyntaxFrom false tree

end

/-! ## Levels -/

section Level

variable {tree s : List (Node (PureWord F))}

theorem isEllipsis_iff {a : Node (PureWord F)} : isEllipsis a = true ↔ a = ellipsis := by
  unfold isEllipsis ellipsis
  constructor
  · intro h
    split at h
    · rw [of_decide_eq_true h]
    · cases h
  · rintro rfl
    exact decide_eq_true rfl

/-- The elements of a level, without its ellipsis. -/
structure Elements (s : List (Node (PureWord F))) : Prop where
  syntaxAtom : ∀ a ∈ s, SyntaxAtom a
  no_ellipsis : ∀ a ∈ s, isEllipsis a = false

theorem syntaxFrom_cases : ∀ {tree : List (Node (PureWord F))} {first : Bool},
    SyntaxFrom first tree → Elements tree ∨
      ∃ s, tree = s ++ [ellipsis] ∧ Elements s ∧ (first = true → s ≠ [])
  | [], _, _ => Or.inl ⟨List.forall_mem_nil _, List.forall_mem_nil _⟩
  | a :: tree, first, h => by
      rw [SyntaxFrom] at h
      obtain ⟨hlast, ha, htree⟩ := h
      by_cases hell : isEllipsis a = true
      · obtain ⟨rfl, rfl⟩ := hlast hell
        refine Or.inr ⟨[], ?_, ⟨List.forall_mem_nil _, List.forall_mem_nil _⟩, fun h => nomatch h⟩
        rw [isEllipsis_iff.mp hell]
        rfl
      · have hcons : ∀ {s : List (Node (PureWord F))}, Elements s → Elements (a :: s) :=
          fun hs => ⟨List.forall_mem_cons.mpr ⟨ha, hs.syntaxAtom⟩,
            List.forall_mem_cons.mpr ⟨Bool.eq_false_iff.mpr hell, hs.no_ellipsis⟩⟩
        rcases syntaxFrom_cases htree with hs | ⟨s, rfl, hs, -⟩
        · exact Or.inl (hcons hs)
        · exact Or.inr ⟨a :: s, rfl, hcons hs, fun _ => List.cons_ne_nil _ _⟩

theorem checkAtoms_step {s : Node (PureWord F)} {sa : Nat} (htree : tree[sa]? = some s)
    (hs : isEllipsis s = false) (la : Node (PureWord F)) (next : List (Node (PureWord F))) :
    checkAtoms tree (la :: next) sa = (checkAtom la s && checkAtoms tree next (sa + 1)) := by
  have hrewind : rewind tree sa = some sa := by
    unfold rewind
    rw [htree, Option.any_some, hs]
    rfl
  rw [checkAtoms, htree]
  simp only [hrewind, htree]

theorem checkAtoms_rewind {s a : Node (PureWord F)} {sa : Nat} (htree : tree[sa]? = some s)
    (hs : isEllipsis s = true) (hstart : tree[0]? = some a) (ha : isEllipsis a = false)
    (la : Node (PureWord F)) (next : List (Node (PureWord F))) :
    checkAtoms tree (la :: next) sa = checkAtoms tree (la :: next) 0 := by
  have hne : sa ≠ 0 := by
    rintro rfl
    cases htree.symm.trans hstart
    exact Bool.false_ne_true (ha.symm.trans hs)
  have hrewind : rewind tree sa = some 0 := by
    unfold rewind
    rw [htree, hstart, Option.any_some, hs, if_pos rfl, if_neg hne, Option.any_some, ha]
    rfl
  rw [checkAtoms_step hstart ha, checkAtoms, htree]
  simp only [hrewind, hstart]

/-- What is known of the atoms of a list. -/
def Decides (l : List (Node (PureWord F))) : Prop :=
  ∀ a ∈ l, ∀ s, SyntaxAtom s → (checkAtom a s = true ↔ Matches s a)

theorem Decides.tail {a : Node (PureWord F)} {l : List (Node (PureWord F))}
    (h : Decides (a :: l)) : Decides l := fun b hb => h b (List.mem_cons_of_mem _ hb)

theorem checkAtoms_once (hs : Elements s) : ∀ {l : List (Node (PureWord F))}, Decides l →
    ∀ {t : List (Node (PureWord F))} {sa : Nat}, s.drop sa = t →
      (checkAtoms s l sa = true ↔ List.Forall₂ Matches t l)
  | [], _, t, sa, ht => by
      rw [checkAtoms, List.forall₂_nil_right_iff, ← ht, ← List.head?_drop]
      cases hdrop : s.drop sa with
      | nil => simp
      | cons a t =>
          have ha : a ∈ s := List.mem_of_mem_drop (hdrop ▸ List.mem_cons_self)
          simp [hs.no_ellipsis a ha]
  | b :: l, hl, [], sa, ht => by
      have hnone : s[sa]? = none := by rw [← List.head?_drop, ht, List.head?_nil]
      rw [checkAtoms, hnone]
      constructor
      · intro h
        cases h
      · intro h
        cases h
  | b :: l, hl, a :: t, sa, ht => by
      have hsome : s[sa]? = some a := by rw [← List.head?_drop, ht, List.head?_cons]
      have ha : a ∈ s := List.mem_of_getElem? hsome
      have hnext : s.drop (sa + 1) = t := by rw [← List.tail_drop, ht, List.tail_cons]
      rw [checkAtoms_step hsome (hs.no_ellipsis a ha), Bool.and_eq_true, List.forall₂_cons,
        hl b List.mem_cons_self a (hs.syntaxAtom a ha), checkAtoms_once hs hl.tail hnext]

theorem checkAtoms_many (hs : Elements s) (hne : s ≠ []) :
    ∀ {l : List (Node (PureWord F))}, Decides l →
      ∀ {t : List (Node (PureWord F))} {sa : Nat}, sa ≤ s.length → s.drop sa = t →
        (checkAtoms (s ++ [ellipsis]) l sa = true ↔ Resumes Matches s t l) := by
  have hell : isEllipsis (ellipsis : Node (PureWord F)) = true := isEllipsis_iff.mpr rfl
  have hend : (s ++ [ellipsis])[s.length]? = some ellipsis := by simp
  have hsome : ∀ {sa : Nat} {a : Node (PureWord F)} {t : List (Node (PureWord F))},
      s.drop sa = a :: t → s[sa]? = some a ∧ sa < s.length ∧ s.drop (sa + 1) = t ∧
        (s ++ [ellipsis])[sa]? = some a := by
    intro sa a t ht
    have hsa : s[sa]? = some a := by rw [← List.head?_drop, ht, List.head?_cons]
    obtain ⟨hlt, -⟩ := List.getElem?_eq_some_iff.mp hsa
    refine ⟨hsa, hlt, by rw [← List.tail_drop, ht, List.tail_cons], ?_⟩
    rw [List.getElem?_append_left hlt, hsa]
  intro l
  induction l with
  | nil =>
      intro _ t sa hle ht
      rw [checkAtoms]
      cases t with
      | nil =>
          have hsa : sa = s.length := Nat.le_antisymm hle (List.drop_eq_nil_iff.mp ht)
          rw [hsa, hend, Option.all_some, hell]
          exact iff_of_true rfl resumes_nil_nil
      | cons a t =>
          obtain ⟨hsa, -, -, htree⟩ := hsome ht
          rw [htree, Option.all_some, hs.no_ellipsis a (List.mem_of_getElem? hsa)]
          exact iff_of_false Bool.false_ne_true not_resumes_cons
  | cons b l ih =>
      intro hl t sa hle ht
      have hat : ∀ {sa : Nat} {a : Node (PureWord F)} {t : List (Node (PureWord F))},
          s.drop sa = a :: t →
            (checkAtoms (s ++ [ellipsis]) (b :: l) sa = true ↔
              Resumes Matches s (a :: t) (b :: l)) := by
        intro sa a t ht
        obtain ⟨hsa, hlt, hnext, htree⟩ := hsome ht
        have ha : a ∈ s := List.mem_of_getElem? hsa
        rw [checkAtoms_step htree (hs.no_ellipsis a ha), Bool.and_eq_true, resumes_cons,
          hl b List.mem_cons_self a (hs.syntaxAtom a ha), ih hl.tail hlt hnext]
      cases t with
      | nil =>
          have hsa : sa = s.length := Nat.le_antisymm hle (List.drop_eq_nil_iff.mp ht)
          obtain ⟨a, t, rfl⟩ := List.exists_cons_of_ne_nil hne
          rw [hsa, checkAtoms_rewind hend hell rfl (hs.no_ellipsis a List.mem_cons_self),
            hat rfl, resumes_nil_cons]
      | cons a t => exact hat ht

theorem not_matches_ellipsis (a : Node (PureWord F)) : ¬Matches ellipsis a := by
  intro h
  unfold ellipsis symEllipsis at h
  cases h with
  | type hname =>
      unfold typeName at hname
      split at hname <;> cases hname

theorem matches_once (hs : Elements s) {l : List (Node (PureWord F))} :
    Matches (.list s) (.list l) ↔ List.Forall₂ Matches s l := by
  constructor
  · intro h
    generalize htree : (Node.list s : Node (PureWord F)) = t at h
    cases h with
    | type _ => cases htree
    | any _ => cases htree
    | once h =>
        cases htree
        exact h
    | many h =>
        cases htree
        have hell := hs.no_ellipsis ellipsis (List.mem_append_right _ (List.mem_singleton.mpr rfl))
        rw [isEllipsis_iff.mpr rfl] at hell
        cases hell
  · exact .once

theorem matches_many {l : List (Node (PureWord F))} :
    Matches (.list (s ++ [ellipsis])) (.list l) ↔
      ∃ n, List.Forall₂ Matches (copiesOf n s) l := by
  constructor
  · intro h
    generalize htree : (Node.list (s ++ [ellipsis]) : Node (PureWord F)) = t at h
    cases h with
    | type _ => cases htree
    | any _ => cases htree
    | once h =>
        cases htree
        obtain ⟨b, hb⟩ := exists_of_mem h (List.mem_append_right _ (List.mem_singleton.mpr rfl))
        exact absurd hb (not_matches_ellipsis b)
    | many h =>
        injection htree with htree
        rw [(List.append_inj_left' htree rfl)]
        exact ⟨_, h⟩
  · rintro ⟨n, h⟩
    exact .many h

theorem checkLevel_iff {l : List (Node (PureWord F))} (hl : Decides l)
    (htree : SyntaxFrom true tree) :
    pdpTreeCheckSyntax l tree = true ↔ Matches (.list tree) (.list l) := by
  unfold pdpTreeCheckSyntax
  rcases syntaxFrom_cases htree with hs | ⟨s, rfl, hs, hne⟩
  · rw [matches_once hs]
    cases l with
    | nil =>
        rw [List.forall₂_nil_right_iff, List.isEmpty_nil, if_pos rfl, checkEmpty,
          Bool.or_eq_true, List.isEmpty_iff]
        refine or_iff_left fun hlast => ?_
        obtain ⟨a, ha, hell⟩ := (Option.any_eq_true _ _).mp hlast
        rw [hs.no_ellipsis a (List.mem_of_getLast? ha)] at hell
        cases hell
    | cons b l => exact checkAtoms_once hs hl rfl
  · rw [matches_many]
    cases l with
    | nil =>
        refine iff_of_true ?_ ⟨0, .nil⟩
        rw [List.isEmpty_nil, if_pos rfl, checkEmpty, List.getLast?_concat, Option.any_some,
          isEllipsis_iff.mpr rfl, Bool.or_true]
    | cons b l =>
        have hstart : Resumes Matches s [] (b :: l) ↔
            ∃ n, List.Forall₂ Matches (copiesOf n s) (b :: l) := Iff.rfl
        rw [← hstart, resumes_nil_cons]
        exact checkAtoms_many hs (hne rfl) hl (Nat.zero_le _) rfl

end Level

theorem checkAtom_pure (a : Node (PureWord F)) (v : PureWord F) :
    checkAtom a (.pure v) = true ↔ Matches (.pure v) a := by
  by_cases hsymbol : ∃ name, v = .symbol name
  · obtain ⟨name, rfl⟩ := hsymbol
    have hcheck : checkAtom a (.pure (.symbol name)) =
        (decide (name = symWildcard) || decide (typeName a = some name)) := by
      cases a <;> rw [checkAtom]
    rw [hcheck, Bool.or_eq_true, decide_eq_true_iff, decide_eq_true_iff]
    constructor
    · rintro (rfl | hname)
      · exact .any a
      · exact .type hname
    · intro h
      cases h with
      | type hname => exact Or.inr hname
      | any _ => exact Or.inl rfl
  · refine iff_of_false ?_ fun h => ?_
    · cases v with
      | symbol name => exact absurd ⟨name, rfl⟩ hsymbol
      | _ => cases a <;> exact Bool.false_ne_true
    · cases h with
      | type _ => exact hsymbol ⟨_, rfl⟩
      | any _ => exact hsymbol ⟨_, rfl⟩

mutual

theorem checkAtom_iff : ∀ a : Node (PureWord F), ∀ s, SyntaxAtom s →
    (checkAtom a s = true ↔ Matches s a)
  | .list nodes => fun s h => by
      cases s with
      | pure v => exact checkAtom_pure _ v
      | list tree =>
          rw [SyntaxAtom] at h
          rw [← checkLevel_iff (decides nodes) h, checkAtom]
          rfl
  | .pure w => fun s _ => by
      cases s with
      | pure v => exact checkAtom_pure _ v
      | list tree =>
          rw [checkAtom]
          refine iff_of_false Bool.false_ne_true fun h => ?_
          cases h

theorem decides : ∀ l : List (Node (PureWord F)), Decides l
  | [] => fun _ ha => nomatch ha
  | b :: l => List.forall_mem_cons.mpr ⟨checkAtom_iff b, decides l⟩

end

/-- The check accepts the trees that a syntax describes. -/
theorem pdpTreeCheckSyntax_iff (list tree : List (Node (PureWord F)))
    (htree : SyntaxAtom (.list tree)) :
    pdpTreeCheckSyntax list tree = true ↔ Matches (.list tree) (.list list) := by
  rw [SyntaxAtom] at htree
  exact checkLevel_iff (decides list) htree

end Syntax

/-- Pairs of a number and a list of such numbers, with two pairs. -/
theorem pdpTreeCheckSyntax_pairs :
    let tree : List (Node (PureWord Unit)) := [.pure (.symbol ['i', 'n', 't']),
      .list [.pure (.symbol ['i', 'n', 't']), ellipsis], ellipsis]
    let list : List (Node (PureWord Unit)) := [.pure (.int 1), .list [], .pure (.int 2),
      .list [.pure (.int 3), .pure (.int 4)]]
    Matches (.list tree) (.list list) :=
  (pdpTreeCheckSyntax_iff _ _ (by simp [SyntaxAtom, SyntaxFrom, ellipsis, isEllipsis,
    symEllipsis])).mp rfl

end PureDataPacket
