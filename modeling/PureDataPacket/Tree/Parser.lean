/-
# `PureDataPacket.Tree.Parser` — trees from text

`pdp_atom_from_cstring` and `pdp_tree_from_cstring` call each other and move one
pointer along a string.  Here the pointer is what lies between it and the end
of the string, the terminating zero included: with nothing left there is
nothing to read.

The lists and atoms that the parser makes are known by the cells they are in, so
that it can be said which of them are in use.  In a list that is being made,
`pdp_list_add_back_atom` puts an atom at the end.
-/
import PureDataPacket.Lib.Arena

namespace PureDataPacket

/-- What goes wrong with memory. -/
inductive TreeFault where
  /-- a read behind the terminating zero -/
  | outOfBounds
  /-- a list or an atom is given back that is not in use -/
  | badFree
  /-- the parser does not come to an end -/
  | endless
deriving DecidableEq

/-! ## Characters -/

def nul : Char := '\x00'

/-- `_is_whitespace`. -/
def isWhitespace (c : Char) : Bool := c = ' ' || c = '\n' || c = '\t'

/-- `_is_left_comment`. -/
def isLeftComment (c : Char) : Bool := c = '#'

/-- `_is_right_comment`. -/
def isRightComment (c : Char) : Bool := c = '\n'

/-- `_is_left_separator`. -/
def isLeftSeparator (c : Char) : Bool := c = '('

/-- `_is_right_separator`. -/
def isRightSeparator (c : Char) : Bool := c = ')'

/-- `_is_terminator`. -/
def isTerminator (c : Char) : Bool := c = nul

/-- `_is_separator`. -/
def isSeparator (c : Char) : Bool :=
  isTerminator c || isLeftSeparator c || isRightSeparator c || isWhitespace c

abbrev CharPtr : Type := List Char

/-- `*c`. -/
def deref : CharPtr → Except TreeFault Char
  | [] => .error .outOfBounds
  | c :: _ => .ok c

/-- `_skip_real_whitespace`. -/
def skipRealWhitespace : CharPtr → Except TreeFault CharPtr
  | [] => .error .outOfBounds
  | c :: p => if isWhitespace c then skipRealWhitespace p else .ok (c :: p)

/-- The loop of `_skip_comment`, and the step over the newline. -/
def skipToNewline : CharPtr → Except TreeFault CharPtr
  | [] => .error .outOfBounds
  | c :: p =>
      if isRightComment c then .ok p
      else if c = nul then .ok (c :: p)
      else skipToNewline p

/-- `_skip_comment`. -/
def skipComment : CharPtr → Except TreeFault CharPtr
  | [] => .error .outOfBounds
  | c :: p => if isLeftComment c then skipToNewline p else .ok (c :: p)

/-- `_skip_whitespace`: both in turn, `n` times at most, until the pointer stops
moving. -/
def skipWhitespaces : Nat → CharPtr → Except TreeFault CharPtr
  | 0, _ => .error .endless
  | n + 1, p => do
      let q ← skipRealWhitespace p
      let q ← skipComment q
      if q.length = p.length then .ok q else skipWhitespaces n q

/-- `_skip_whitespace`. -/
def skipWhitespace (p : CharPtr) : Except TreeFault CharPtr := skipWhitespaces (p.length + 1) p

/-- The characters of a pure atom, and what is behind them. -/
def pureChars : CharPtr → Except TreeFault (List Char × CharPtr)
  | [] => .error .outOfBounds
  | c :: p =>
      if isSeparator c then .ok ([], c :: p)
      else do
        let (tmp, q) ← pureChars p
        .ok (c :: tmp, q)

/-! ## Lists in use -/

/-- A tree without its cells: what it says. -/
inductive Node (α : Type) where
  | pure (v : α)
  | list (nodes : List (Node α))

/-- An atom in its cell `a`.  A list atom has the cell `l` of the list header, and
the atoms of the list. -/
inductive Owned (α : Type) where
  | pure (a : Nat) (v : α)
  | list (a l : Nat) (nodes : List (Owned α))

/-- The lists and the atoms that are in use. -/
structure TreePool where
  lists : Arena Unit
  atoms : Arena Unit

namespace TreePool

/-- `pdp_list_new(0)`. -/
def listNew (s : TreePool) : Nat × TreePool := (s.lists.next, { s with lists := s.lists.alloc () })

/-- `pdp_atom_new`. -/
def atomNew (s : TreePool) : Nat × TreePool := (s.atoms.next, { s with atoms := s.atoms.alloc () })

/-- `PDP_LIST_DEALLOC`. -/
def listDealloc (s : TreePool) (l : Nat) : Except TreeFault TreePool :=
  match s.lists.cells l with
  | none => .error .badFree
  | some _ => .ok { s with lists := s.lists.dealloc l }

/-- `PDP_ATOM_DEALLOC`. -/
def atomDealloc (s : TreePool) (a : Nat) : Except TreeFault TreePool :=
  match s.atoms.cells a with
  | none => .error .badFree
  | some _ => .ok { s with atoms := s.atoms.dealloc a }

end TreePool

section Parser

variable {α : Type}

mutual

/-- The body of the loop of `pdp_tree_clear`. -/
def atomClear : Owned α → TreePool → Except TreeFault TreePool
  | .pure a _, s => s.atomDealloc a
  | .list a l nodes, s => do
      let s ← treeClear nodes s
      let s ← s.listDealloc l
      s.atomDealloc a

/-- `pdp_tree_clear`. -/
def treeClear : List (Owned α) → TreePool → Except TreeFault TreePool
  | [], s => .ok s
  | a :: nodes, s => do
      let s ← atomClear a s
      treeClear nodes s

end

/-- `pdp_tree_free`. -/
def pdpTreeFree (l : Nat) (nodes : List (Owned α)) (s : TreePool) : Except TreeFault TreePool := do
  let s ← treeClear nodes s
  s.listDealloc l

-- what `_parse_pure_atom` makes of the characters of an atom
variable (parsePureAtom : List Char → α)

mutual

/-- `pdp_atom_from_cstring`.  The number bounds how deep the calls go. -/
def atomFromCstring : Nat → CharPtr → TreePool →
    Except TreeFault (Option (Owned α) × CharPtr × TreePool)
  | 0, _, _ => .error .endless
  | n + 1, chardef, s => do
      let chardef ← skipWhitespace chardef
      let c ← deref chardef
      if c = nul || isRightSeparator c then .ok (none, chardef, s)
      else if isLeftSeparator c then do
        let (l, chardef, s) ← treeFromCstring n chardef s
        match l with
        | none => .ok (none, chardef, s)
        | some (l, nodes) =>
            let (a, s) := s.atomNew
            .ok (some (.list a l nodes), chardef, s)
      else do
        let (tmp, rest) ← pureChars chardef
        if tmp = [] then .ok (none, chardef, s)
        else
          let (a, s) := s.atomNew
          .ok (some (.pure a (parsePureAtom tmp)), rest, s)

/-- The loop of `pdp_tree_from_cstring`. -/
def atomsFromCstring : Nat → CharPtr → List (Owned α) → TreePool →
    Except TreeFault (List (Owned α) × CharPtr × TreePool)
  | 0, _, _, _ => .error .endless
  | n + 1, chardef, nodes, s => do
      let (a, chardef, s) ← atomFromCstring n chardef s
      match a with
      | none => .ok (nodes, chardef, s)
      | some a => atomsFromCstring n chardef (nodes ++ [a]) s

/-- `pdp_tree_from_cstring`. -/
def treeFromCstring : Nat → CharPtr → TreePool →
    Except TreeFault (Option (Nat × List (Owned α)) × CharPtr × TreePool)
  | 0, _, _ => .error .endless
  | n + 1, chardef, s => do
      let (l, s) := s.listNew
      let chardef ← skipWhitespace chardef
      let c ← deref chardef
      if !isLeftSeparator c then do
        let s ← pdpTreeFree (α := α) l [] s
        .ok (none, chardef, s)
      else do
        let (nodes, chardef, s) ← atomsFromCstring n chardef.tail [] s
        let chardef ← skipWhitespace chardef
        let c ← deref chardef
        if !isRightSeparator c then do
          let s ← pdpTreeFree l nodes s
          .ok (none, chardef, s)
        else .ok (some (l, nodes), chardef.tail, s)

end

/-- `pdp_tree_from_cstring`: the new list, if there is one, and `*next`. -/
def pdpTreeFromCstring (chardef : CharPtr) (s : TreePool) :
    Except TreeFault (Option (Nat × List (Owned α)) × CharPtr × TreePool) :=
  treeFromCstring parsePureAtom (3 * chardef.length + 1) chardef s

end Parser

end PureDataPacket
