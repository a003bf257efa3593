/-
# `PureDataPacket.Tree.Printer` — trees to text, and back

`_pdp_list_fprint` writes a tree, and `_parse_pure_atom` decides what a pure atom
that has been read is: a number if all of it is one, and else a symbol.  What was
written is read back, as long as the tree has integers, lists and symbols only,
and no symbol looks like something else.

`strtod`, `printf("%f")` and the descriptions of packets are not here, so they are
parameters; a symbol is its name.  Atom pointers, which make a graph of a tree,
are left out.

| | |
| :-- | :-- |
| `SymbolName` | a name that is read as a symbol |
| `Printable` | a tree of integers, lists and such symbols |
| `ne_of_printInt` | numbers have no special characters |
| `items_pure` | a pure atom that is followed by a separator |
-/
import PureDataPacket.Tree.Parsing
import PureDataPacket.Lib.Strtol

namespace PureDataPacket

/-- What is in an atom that is no list. -/
inductive PureWord (F : Type) where
  | undef
  | pointer (w : Int)
  | float (x : F)
  | int (n : Int)
  | symbol (name : List Char)
  | packet (handle : Int)
  | forthWord (w : Int)
  | vmWord (w : Int)
  | vmMacro (w : Int)

/-- `printf("0x%08x")`. -/
def printAddress (w : Int) : List Char :=
  let digits := Nat.toDigits 16 (ofInt32 w)
  '0' :: 'x' :: (List.replicate (8 - digits.length) '0' ++ digits)

section Printer

variable {F : Type} (printFloat : F → List Char) (description : Int → List Char)

/-- `_pdp_atom_fprint`, for an atom that is no list. -/
def wordFprint : PureWord F → List Char
  | .symbol name => name
  | .float x => printFloat x
  | .int n => printInt n
  | .packet p => "#<pdp ".toList ++ printInt p ++ ' ' :: (description p ++ ['>'])
  | .pointer w => "#<".toList ++ printAddress w ++ ['>']
  | .undef => "<undef>".toList
  | .forthWord w => "#<forth word ".toList ++ printAddress w ++ ['>']
  | .vmWord w => "#<vm word ".toList ++ printAddress w ++ ['>']
  | .vmMacro w => "#<vm macro ".toList ++ printAddress w ++ ['>']

mutual

/-- `_pdp_atom_fprint`. -/
def atomFprint : Node (PureWord F) → List Char
  | .pure v => wordFprint printFloat description v
  | .list nodes => '(' :: (atomsFprint nodes ++ [')'])

/-- The loop of `_pdp_atomlist_fprint`. -/
def atomsFprint : List (Node (PureWord F)) → List Char
  | [] => []
  | a :: nodes =>
      atomFprint a ++ match nodes with
        | [] => []
        | b :: nodes => ' ' :: atomsFprint (b :: nodes)

end

/-- `_pdp_atomlist_fprint`. -/
def atomlistFprint (nodes : List (Node (PureWord F))) : List Char :=
  '(' :: (atomsFprint printFloat description nodes ++ [')'])

/-- `_pdp_list_fprint`. -/
def pdpListFprint (nodes : List (Node (PureWord F))) : List Char :=
  atomlistFprint printFloat description nodes ++ ['\n']

end Printer

/-- `_parse_pure_atom`.  `strtod` returns what it has read and the rest. -/
def parsePureAtom {F : Type} (strtod : List Char → F × List Char) (c : List Char) : PureWord F :=
  if '.' ∈ c then
    let (f, next) := strtod c
    if next = [] then .float f else .symbol c
  else
    let (i, next) := strtol c
    if next = [] then .int (toInt32 i) else .symbol c

/-! ## What is written can be read -/

section RoundTrip

variable {F : Type} {printFloat : F → List Char} {description : Int → List Char}
  {strtod : List Char → F × List Char}

/-- A name that is read as a symbol. -/
structure SymbolName (strtod : List Char → F × List Char) (name : List Char) : Prop where
  ne_nil : name ≠ []
  chars : ∀ c ∈ name, isSeparator c = false
  head : name.head? ≠ some '#'
  no_number : parsePureAtom strtod name = .symbol name

mutual

/-- A tree of integers, lists and such symbols. -/
def Printable (strtod : List Char → F × List Char) : Node (PureWord F) → Prop
  | .pure (.int n) => IsInt n
  | .pure (.symbol name) => SymbolName strtod name
  | .pure _ => False
  | .list nodes => AllPrintable strtod nodes

/-- Trees of integers, lists and such symbols. -/
def AllPrintable (strtod : List Char → F × List Char) : List (Node (PureWord F)) → Prop
  | [] => True
  | a :: nodes => Printable strtod a ∧ AllPrintable strtod nodes

end

theorem printInt_ne_nil (n : Int) : printInt n ≠ [] := by
  cases n with
  | ofNat n => exact Nat.toDigits_ne_nil
  | negSucc n => exact List.cons_ne_nil _ _

/-- The characters of a number are none of those that mean something else. -/
theorem ne_of_printInt {n : Int} {c : Char} (h : c ∈ printInt n) (d : Char)
    (hd : d.toNat < 45 ∨ d = '.') : c ≠ d := by
  rintro rfl
  rcases printInt_chars h with hdigit | rfl
  · have hb := isDigit_bounds hdigit
    rcases hd with hd | rfl
    · omega
    · revert hb
      decide
  · rcases hd with hd | hd
    · revert hd
      decide
    · cases hd

theorem printInt_token {n : Int} :
    (∀ c ∈ printInt n, isSeparator c = false) ∧ (printInt n).head? ≠ some '#' := by
  refine ⟨fun c hc => ?_, fun he => ?_⟩
  · have hne := fun d hd => ne_of_printInt hc d (Or.inl hd)
    simp only [isSeparator, isTerminator, isLeftSeparator, isRightSeparator, isWhitespace,
      hne nul (by decide), hne '(' (by decide), hne ')' (by decide), hne ' ' (by decide),
      hne '\n' (by decide), hne '\t' (by decide), decide_false, Bool.or_self]
  · exact ne_of_printInt (List.mem_of_mem_head? he) '#' (Or.inl (by decide)) rfl

theorem parsePureAtom_printInt {n : Int} (hn : IsInt n) :
    parsePureAtom strtod (printInt n) = .int n := by
  have hdot : '.' ∉ printInt n := fun h => ne_of_printInt h '.' (Or.inr rfl) rfl
  unfold parsePureAtom
  simp only [if_neg hdot, strtol_printInt hn, if_true, toInt32_of_isInt hn]

theorem items_blank {s t : List Char} {a : Node (PureWord F)} {nodes : List (Node (PureWord F))}
    {f : List Char → PureWord F} (h : Items f s (a :: nodes) t) :
    Items f (' ' :: s) (a :: nodes) t := by
  cases h with
  | pure hws htok h => exact .pure (.blank rfl hws) htok h
  | list hsub h =>
      obtain ⟨h₁, hi, h₂⟩ := hsub
      exact .list (.mk (.blank rfl h₁) hi h₂) h

theorem items_pure {tok rest t : List Char} {nodes : List (Node (PureWord F))} {v : PureWord F}
    (hne : tok ≠ []) (hchars : ∀ c ∈ tok, isSeparator c = false) (hhead : tok.head? ≠ some '#')
    (hv : parsePureAtom strtod tok = v) (hrest : ∀ c, rest.head? = some c → isSeparator c = true)
    (h : Items (parsePureAtom strtod) rest nodes t) :
    Items (parsePureAtom strtod) (tok ++ rest) (.pure v :: nodes) t := by
  subst hv
  exact .pure .nil ⟨rfl, hne, hhead, hchars, hrest⟩ h

mutual

theorem atomFprint_items : ∀ {a : Node (PureWord F)}, Printable strtod a → ∀ {rest t : List Char}
    {nodes : List (Node (PureWord F))}, (∀ c, rest.head? = some c → isSeparator c = true) →
    Items (parsePureAtom strtod) rest nodes t →
    Items (parsePureAtom strtod) (atomFprint printFloat description a ++ rest) (a :: nodes) t
  | .pure v, ha, rest, t, nodes, hrest, h => by
      rw [atomFprint]
      cases v with
      | int n =>
          exact items_pure (printInt_ne_nil n) printInt_token.1 printInt_token.2
            (parsePureAtom_printInt ha) hrest h
      | symbol name => exact items_pure ha.ne_nil ha.chars ha.head ha.no_number hrest h
      | undef => cases ha
      | pointer w => cases ha
      | float x => cases ha
      | packet p => cases ha
      | forthWord w => cases ha
      | vmWord w => cases ha
      | vmMacro w => cases ha
  | .list sub, ha, rest, t, nodes, hrest, h => by
      rw [atomFprint, List.cons_append, List.append_assoc]
      exact .list (.mk .nil (atomsFprint_items ha rest) .nil) h

theorem atomsFprint_items : ∀ {nodes : List (Node (PureWord F))}, AllPrintable strtod nodes →
    ∀ (rest : List Char),
    Items (parsePureAtom strtod) (atomsFprint printFloat description nodes ++ ')' :: rest) nodes
      (')' :: rest)
  | [], _, rest => by
      rw [atomsFprint]
      exact .nil
  | a :: [], h, rest => by
      rw [atomsFprint, List.append_nil]
      exact atomFprint_items h.1 (fun c hc => by cases hc; rfl) .nil
  | a :: b :: nodes, h, rest => by
      have htail := items_blank (atomsFprint_items h.2 rest)
      rw [atomsFprint, List.append_assoc]
      exact atomFprint_items h.1 (fun c hc => by cases hc; rfl) htail

end

mutual

theorem atomFprint_text : ∀ {a : Node (PureWord F)}, Printable strtod a →
    Text (atomFprint printFloat description a)
  | .pure v, ha => by
      rw [atomFprint]
      cases v with
      | int n => exact fun hm => Bool.false_ne_true ((printInt_token.1 nul hm).symm.trans rfl)
      | symbol name => exact fun hm => Bool.false_ne_true ((ha.chars nul hm).symm.trans rfl)
      | undef => cases ha
      | pointer w => cases ha
      | float x => cases ha
      | packet p => cases ha
      | forthWord w => cases ha
      | vmWord w => cases ha
      | vmMacro w => cases ha
  | .list sub, ha => by
      have hsub : Text (atomsFprint printFloat description sub) := atomsFprint_text ha
      rw [atomFprint]
      intro hm
      rcases List.mem_cons.mp hm with hm | hm
      · cases hm
      · rcases List.mem_append.mp hm with hm | hm
        · exact hsub hm
        · cases List.mem_singleton.mp hm

theorem atomsFprint_text : ∀ {nodes : List (Node (PureWord F))}, AllPrintable strtod nodes →
    Text (atomsFprint printFloat description nodes)
  | [], _ => by
      rw [atomsFprint]
      exact List.not_mem_nil
  | a :: [], h => by
      rw [atomsFprint, List.append_nil]
      exact atomFprint_text h.1
  | a :: b :: nodes, h => by
      have ha : Text (atomFprint printFloat description a) := atomFprint_text h.1
      have htail : Text (atomsFprint printFloat description (b :: nodes)) := atomsFprint_text h.2
      rw [atomsFprint]
      intro hm
      rcases List.mem_append.mp hm with hm | hm
      · exact ha hm
      · rcases List.mem_cons.mp hm with hm | hm
        · cases hm
        · exact htail hm

end

/-- Parsing undoes printing. -/
theorem parse_fprint {nodes : List (Node (PureWord F))} (h : AllPrintable strtod nodes)
    (printFloat : F → List Char) (description : Int → List Char) (p : TreePool) :
    ∃ l os p', pdpTreeFromCstring (parsePureAtom strtod)
        (cString (pdpListFprint printFloat description nodes)) p =
      .ok (some (l, os), cString ['\n'], p') ∧ eraseAll os = nodes := by
  refine tree_complete ?_ ?_ p
  · unfold pdpListFprint atomlistFprint
    rw [List.cons_append, List.append_assoc]
    exact .mk .nil (atomsFprint_items h ['\n']) .nil
  · have htext : Text (atomsFprint printFloat description nodes) := atomsFprint_text h
    unfold pdpListFprint atomlistFprint
    intro hm
    rcases List.mem_append.mp hm with hm | hm
    · rcases List.mem_cons.mp hm with hm | hm
      · cases hm
      · rcases List.mem_append.mp hm with hm | hm
        · exact htext hm
        · cases List.mem_singleton.mp hm
    · cases List.mem_singleton.mp hm

/-- `(-5 () a#b)`.  There is no point in it, so nothing is read as a float. -/
theorem parse_fprint_example :
    let nodes : List (Node (PureWord Unit)) :=
      [.pure (.int (-5)), .list [], .pure (.symbol "a#b".toList)]
    ∃ l os p', pdpTreeFromCstring (parsePureAtom fun c => ((), c))
        (cString (pdpListFprint (fun _ => []) (fun _ => []) nodes)) ⟨.empty, .empty⟩ =
      .ok (some (l, os), cString ['\n'], p') ∧ eraseAll os = nodes := by
  have hsymbol : SymbolName (fun c => ((), c)) "a#b".toList :=
    ⟨by decide, by
      intro c hc
      have hcases : c = 'a' ∨ c = '#' ∨ c = 'b' := by simpa using hc
      rcases hcases with rfl | rfl | rfl <;> decide, by decide, rfl⟩
  have hprintable : AllPrintable (fun c => ((), c))
      [.pure (.int (-5)), .list [], .pure (.symbol "a#b".toList)] := by
    simp only [AllPrintable, Printable]
    exact ⟨by decide, trivial, hsymbol, trivial⟩
  exact parse_fprint hprintable _ _ _

end RoundTrip

end PureDataPacket
