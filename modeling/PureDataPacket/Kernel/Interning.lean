/-
# `PureDataPacket.Kernel.Interning` — the symbol table behind type descriptions

The other modules take a symbol for its name.  Here a symbol is what it is in
the code, a pointer: `pdp_gensym` finds it in a chain of the hash table or adds
it, names are never compared afterwards, and a symbol keeps the list of its
words once it has been split.

`SymbolTable.WellFormed` says why this makes no difference: each name has one
symbol, and a kept list is the list of the words.  So
`pdp_type_description_match` on pointers is the function of `Kernel.Symbol` on
names (`descriptionMatch_spec`), whatever has been split before.

| | |
| :-- | :-- |
| `Linked` | what holds of the chains |
| `WellFormed` | the same with the wildcard |
| `Extends` | what a table may become |
| `SegmentsMatch` | words in the same place agree, and a shorter list ends in a wildcard |
| `pdpGensym_spec` | `pdp_gensym` returns the symbol of a name |
| `compareWords_eq_some_iff` | what the comparison loop does |
-/
import PureDataPacket.Kernel.Symbol
import PureDataPacket.Lib.CInt
import Mathlib.Logic.Function.Basic

namespace PureDataPacket

/-- `t_pdp_symbol *`: symbols are numbered as they come into being. -/
abbrev SymbolPtr : Type := Nat

/-- `HASHSIZE`. -/
def hashsize : Nat := 1024

/-- The value of a `char`, which has a sign. -/
def charValue (c : Char) : Int := if c.toNat < 128 then c.toNat else (c.toNat : Int) - 256

/-- The body of the hash loop, on `hash1` and `hash2`. -/
def hashStep (h : Nat × Nat) (c : Char) : Nat × Nat :=
  let hash1 := u32 (h.1 + ofInt32 (charValue c))
  (hash1, u32 (h.2 + hash1))

def bucketOf (s : Symbol) : Nat := (s.foldl hashStep (0, 0)).2 &&& (hashsize - 1)

/-- The symbols with their names, `pdp_symhash` and the `s_type` of each. -/
structure SymbolTable where
  names : List Symbol
  chains : Nat → List SymbolPtr
  sType : SymbolPtr → Option (List SymbolPtr)

namespace SymbolTable

/-- `s_name`. -/
def sName (t : SymbolTable) (p : SymbolPtr) : Symbol := t.names.getD p []

/-- `*sym1 = sym2`, at the end of the chain of bucket `h`. -/
def link (t : SymbolTable) (h : Nat) (p : SymbolPtr) : SymbolTable :=
  { t with chains := Function.update t.chains h (t.chains h ++ [p]) }

/-- A symbol with a name, in no chain. -/
def alloc (t : SymbolTable) (s : Symbol) : SymbolTable := { t with names := t.names ++ [s] }

/-- `_pdp_dogensym`. -/
def pdpDogensym (s : Symbol) (oldsym : Option SymbolPtr) (t : SymbolTable) :
    SymbolPtr × SymbolTable :=
  match (t.chains (bucketOf s)).find? fun p => t.sName p = s with
  | some p => (p, t)
  | none =>
      match oldsym with
      | some p => (p, t.link (bucketOf s) p)
      | none => (t.names.length, (t.alloc s).link (bucketOf s) t.names.length)

/-- `pdp_gensym`. -/
def pdpGensym (s : Symbol) (t : SymbolTable) : SymbolPtr × SymbolTable := pdpDogensym s none t

/-- `_sym`, for a symbol that there is already. -/
def sym (t : SymbolTable) (name : Symbol) : SymbolTable :=
  (pdpDogensym name (some t.names.length) (t.alloc name)).2

/-- The names of the predefined symbols. -/
def predefined : List Symbol :=
  ["*", "float", "int", "symbol", "packet", "pointer", "invalid", "list", "?", "atom", "null",
    "[", "]", "ret", "nret", ":", ";", "if", "then", "local", "forth", "call", "push",
    "pop"].map String.toList

/-- `pdp_symbol_setup`. -/
def pdpSymbolSetup : SymbolTable := predefined.foldl sym ⟨[], fun _ => [], fun _ => none⟩

/-- `PDP_SYM_WILDCARD`: the first of the predefined symbols. -/
def wildcardPtr : SymbolPtr := 0

/-- The loop of `pdp_type_to_list`; `last` is what has been read since the last
`/`. -/
def typeToListLoop : List Char → List Char → SymbolTable → List SymbolPtr × SymbolTable
  | [], last, t =>
      let word := pdpGensym last t
      ([word.1], word.2)
  | c :: cs, last, t =>
      if c = '/' then
        let word := pdpGensym last t
        let rest := typeToListLoop cs [] word.2
        (word.1 :: rest.1, rest.2)
      else typeToListLoop cs (last ++ [c]) t

/-- `pdp_type_to_list`. -/
def typeToList (type : SymbolPtr) (t : SymbolTable) : List SymbolPtr × SymbolTable :=
  typeToListLoop (t.sName type) [] t

/-- `pdp_symbol_set_typelist`: 1, or 0 if there is a list already. -/
def pdpSymbolSetTypelist (s : SymbolPtr) (typelist : List SymbolPtr) (t : SymbolTable) :
    Nat × SymbolTable :=
  match t.sType s with
  | none => (1, { t with sType := Function.update t.sType s (some typelist) })
  | some _ => (0, t)

/-- `_setup_type_cache`. -/
def setupTypeCache (s : SymbolPtr) (t : SymbolTable) : SymbolTable :=
  let l := typeToList s t
  (pdpSymbolSetTypelist s l.1 l.2).2

/-- `if (!(s->s_type)) _setup_type_cache(s)`. -/
def needTypeCache (s : SymbolPtr) (t : SymbolTable) : SymbolTable :=
  if t.sType s = none then setupTypeCache s t else t

def compareSymbols : List SymbolPtr → List SymbolPtr → Option (List SymbolPtr × List SymbolPtr)
  | d :: ad, p :: ap =>
      if d = wildcardPtr then compareSymbols ad ap
      else if p = wildcardPtr then compareSymbols ad ap
      else if d ≠ p then none
      else compareSymbols ad ap
  | ad, ap => some (ad, ap)

/-- The part of `pdp_type_description_match` that looks at the two lists. -/
def compareTypes (description pattern : List SymbolPtr) : Bool :=
  match compareSymbols description pattern with
  | none => false
  | some ([], []) => true
  | some (ad, ap) =>
      if ap ≠ [] ∧ description.getLast? ≠ some wildcardPtr then false
      else if ad ≠ [] ∧ pattern.getLast? ≠ some wildcardPtr then false
      else true

/-- `pdp_type_description_match`. -/
def descriptionMatch (description pattern : SymbolPtr) (t : SymbolTable) : Bool × SymbolTable :=
  if description = pattern then (true, t)
  else
    let t := needTypeCache description t
    let t := needTypeCache pattern t
    (compareTypes ((t.sType description).getD []) ((t.sType pattern).getD []), t)

/-- The tables that the symbol functions lead to. -/
inductive Reachable : SymbolTable → Prop
  | setup : Reachable pdpSymbolSetup
  | gensym {t : SymbolTable} (ht : Reachable t) (s : Symbol) : Reachable (pdpGensym s t).2
  | typeToList {t : SymbolTable} (ht : Reachable t) {s : SymbolPtr} (hs : s < t.names.length) :
      Reachable (typeToList s t).2
  | setupTypeCache {t : SymbolTable} (ht : Reachable t) {s : SymbolPtr}
      (hs : s < t.names.length) : Reachable (setupTypeCache s t)
  | descriptionMatch {t : SymbolTable} (ht : Reachable t) {d p : SymbolPtr}
      (hd : d < t.names.length) (hp : p < t.names.length) : Reachable (descriptionMatch d p t).2

/-! ## One symbol for each name -/

/-- Every symbol is in the chain of its name, names are distinct, and a kept list
has the words of the name. -/
structure Linked (t : SymbolTable) : Prop where
  chained : ∀ h, ∀ p ∈ t.chains h, p < t.names.length ∧ bucketOf (t.sName p) = h
  linked : ∀ p < t.names.length, p ∈ t.chains (bucketOf (t.sName p))
  distinct : t.names.Nodup
  types : ∀ p l, t.sType p = some l →
    p < t.names.length ∧ (∀ q ∈ l, q < t.names.length) ∧
      l.map t.sName = pdpTypeToList (t.sName p)

/-- And the first symbol is the wildcard. -/
structure WellFormed (t : SymbolTable) : Prop extends Linked t where
  wildcard : t.names[wildcardPtr]? = some symWildcard

/-- `t'` is what `t` has become: symbols stay, and so do kept lists. -/
structure Extends (t t' : SymbolTable) : Prop where
  names : t.names <+: t'.names
  types : ∀ p l, t.sType p = some l → t'.sType p = some l

section Names

variable {t t' t'' : SymbolTable} {s : Symbol} {p q : SymbolPtr}

theorem sName_eq (hp : p < t.names.length) : t.names[p]? = some (t.sName p) := by
  unfold sName
  rw [List.getD_eq_getElem?_getD, List.getElem?_eq_getElem hp, Option.getD_some]

theorem sName_of_getElem (h : t.names[p]? = some s) : t.sName p = s := by
  unfold sName
  rw [List.getD_eq_getElem?_getD, h, Option.getD_some]

theorem Extends.refl (t : SymbolTable) : Extends t t := ⟨List.prefix_refl _, fun _ _ h => h⟩

theorem Extends.trans (h : Extends t t') (h' : Extends t' t'') : Extends t t'' :=
  ⟨h.names.trans h'.names, fun p l hl => h'.types p l (h.types p l hl)⟩

theorem Extends.lt (h : Extends t t') (hp : p < t.names.length) : p < t'.names.length :=
  Nat.lt_of_lt_of_le hp h.names.length_le

theorem Extends.sName (h : Extends t t') (hp : p < t.names.length) : t'.sName p = t.sName p := by
  obtain ⟨new, hnew⟩ := h.names
  refine sName_of_getElem ?_
  rw [← hnew, List.getElem?_append_left hp, sName_eq hp]

theorem Extends.map_sName (h : Extends t t') {l : List SymbolPtr}
    (hl : ∀ q ∈ l, q < t.names.length) : l.map t'.sName = l.map t.sName :=
  List.map_congr_left fun q hq => h.sName (hl q hq)

theorem extends_alloc (t : SymbolTable) (s : Symbol) (h p : Nat) :
    Extends t ((t.alloc s).link h p) := ⟨List.prefix_append _ _, fun _ _ h => h⟩

theorem Linked.sName_inj (ht : t.Linked) (hp : p < t.names.length) (hq : q < t.names.length)
    (h : t.sName p = t.sName q) : p = q := by
  have he : t.names[p]? = t.names[q]? := by rw [sName_eq hp, sName_eq hq, h]
  exact (List.getElem?_inj hp ht.distinct).mp he

theorem WellFormed.wildcard_iff (ht : t.WellFormed) (hp : p < t.names.length) :
    t.sName p = symWildcard ↔ p = wildcardPtr := by
  obtain ⟨hlt, _⟩ := List.getElem?_eq_some_iff.mp ht.wildcard
  rw [← sName_of_getElem ht.wildcard]
  exact ⟨ht.sName_inj hp hlt, fun h => by rw [h]⟩

theorem find_some (ht : t.Linked)
    (h : (t.chains (bucketOf s)).find? (fun p => t.sName p = s) = some p) :
    p < t.names.length ∧ t.sName p = s := by
  refine ⟨(ht.chained _ p (List.mem_of_find?_eq_some h)).1, ?_⟩
  simpa using List.find?_some h

theorem find_none (ht : t.Linked)
    (h : (t.chains (bucketOf s)).find? (fun p => t.sName p = s) = none) : s ∉ t.names := by
  intro hs
  obtain ⟨p, hp, hps⟩ := List.mem_iff_getElem.mp hs
  have hname : t.sName p = s := sName_of_getElem (List.getElem?_eq_some_iff.mpr ⟨hp, hps⟩)
  have hmem := ht.linked p hp
  rw [hname] at hmem
  have := List.find?_eq_none.mp h p hmem
  simp [hname] at this

theorem chains_link (t : SymbolTable) (h h' : Nat) (p : SymbolPtr) :
    (t.link h p).chains h' = if h' = h then t.chains h ++ [p] else t.chains h' :=
  Function.update_apply ..

theorem sName_new (t : SymbolTable) (s : Symbol) (h p : Nat) :
    ((t.alloc s).link h p).sName t.names.length = s :=
  sName_of_getElem List.getElem?_concat_length

theorem Linked.append (ht : t.Linked) (hs : s ∉ t.names) :
    Linked ((t.alloc s).link (bucketOf s) t.names.length) := by
  have hext := extends_alloc t s (bucketOf s) t.names.length
  have hnew := sName_new t s (bucketOf s) t.names.length
  have hlen : ((t.alloc s).link (bucketOf s) t.names.length).names.length = t.names.length + 1 :=
    List.length_append
  have hold : ∀ h, ∀ p ∈ t.chains h, p < t.names.length + 1 ∧
      bucketOf (((t.alloc s).link (bucketOf s) t.names.length).sName p) = h := fun h p hp => by
    obtain ⟨hlt, hb⟩ := ht.chained h p hp
    exact ⟨Nat.lt_succ_of_lt hlt, by rw [hext.sName hlt, hb]⟩
  refine ⟨fun h p hp => ?_, fun p hp => ?_, ?_, fun p l hl => ?_⟩
  · rw [chains_link] at hp
    rw [hlen]
    split at hp
    · next hh =>
        rcases List.mem_append.mp hp with hp | hp
        · rw [hh]
          exact hold _ p hp
        · rw [List.mem_singleton.mp hp, hnew, hh]
          exact ⟨Nat.lt_succ_self _, rfl⟩
    · exact hold h p hp
  · rw [hlen] at hp
    rw [chains_link]
    rcases Nat.lt_succ_iff_lt_or_eq.mp hp with hlt | rfl
    · rw [hext.sName hlt]
      split
      · next hh => exact List.mem_append_left _ (hh ▸ ht.linked p hlt)
      · exact ht.linked p hlt
    · rw [hnew, if_pos rfl]
      exact List.mem_append_right _ (List.mem_singleton_self _)
  · exact List.nodup_append.mpr ⟨ht.distinct, List.pairwise_singleton .., fun a ha b hb he => by
      rw [List.mem_singleton.mp hb] at he
      exact hs (he ▸ ha)⟩
  · obtain ⟨hlt, hvalid, hnames⟩ := ht.types p l hl
    exact ⟨hext.lt hlt, fun q hq => hext.lt (hvalid q hq), by
      rw [hext.map_sName hvalid, hext.sName hlt, hnames]⟩

end Names

section Gensym

variable {t : SymbolTable} {s : Symbol}

/-- What the functions do that may add symbols. -/
structure Grows (t t' : SymbolTable) : Prop where
  wellFormed : t'.WellFormed
  ext : Extends t t'

theorem Grows.refl (ht : t.WellFormed) : Grows t t := ⟨ht, .refl t⟩

theorem Grows.trans {t' t'' : SymbolTable} (h : Grows t t') (h' : Grows t' t'') : Grows t t'' :=
  ⟨h'.wellFormed, h.ext.trans h'.ext⟩

/-- A symbol with the name `s`. -/
structure Interned (t : SymbolTable) (p : SymbolPtr) (s : Symbol) : Prop where
  lt : p < t.names.length
  name : t.sName p = s

theorem Interned.mono {t' : SymbolTable} {p : SymbolPtr} (h : t.Interned p s)
    (hext : Extends t t') : t'.Interned p s :=
  ⟨hext.lt h.lt, by rw [hext.sName h.lt, h.name]⟩

theorem pdpGensym_spec (ht : t.WellFormed) (s : Symbol) :
    Grows t (pdpGensym s t).2 ∧ (pdpGensym s t).2.Interned (pdpGensym s t).1 s := by
  unfold pdpGensym pdpDogensym
  split
  · next p hp =>
      obtain ⟨hlt, hname⟩ := find_some ht.toLinked hp
      exact ⟨.refl ht, hlt, hname⟩
  · next hnone =>
      have hext := extends_alloc t s (bucketOf s) t.names.length
      have hlinked := ht.toLinked.append (find_none ht.toLinked hnone)
      refine ⟨⟨⟨hlinked, ?_⟩, hext⟩, ?_, sName_new ..⟩
      · obtain ⟨hlt, _⟩ := List.getElem?_eq_some_iff.mp ht.wildcard
        rw [sName_eq (hext.lt hlt), hext.sName hlt, sName_of_getElem ht.wildcard]
      · show _ < (t.names ++ [s]).length
        rw [List.length_append]
        exact Nat.lt_succ_self _

/-- `pdp_symbol_setup` adds the predefined names in their order. -/
theorem linked_sym (ht : t.Linked) (hs : s ∉ t.names) :
    (t.sym s).Linked ∧ (t.sym s).names = t.names ++ [s] := by
  have hchain : (t.chains (bucketOf s)).find? (fun p => (t.alloc s).sName p = s) = none := by
    refine List.find?_eq_none.mpr fun p hp => ?_
    have hlt := (ht.chained _ p hp).1
    have hname : (t.alloc s).sName p = t.sName p :=
      (extends_alloc t s 0 0).sName hlt
    rw [hname]
    intro h
    exact hs (of_decide_eq_true h ▸ List.mem_of_getElem? (sName_eq hlt))
  have heq : t.sym s = (t.alloc s).link (bucketOf s) t.names.length := by
    have hchain' : ((t.alloc s).chains (bucketOf s)).find? (fun p => (t.alloc s).sName p = s) =
        none := hchain
    unfold sym pdpDogensym
    rw [hchain']
  rw [heq]
  exact ⟨ht.append hs, rfl⟩

theorem linked_foldl_sym {l : List Symbol} (ht : t.Linked) (hl : (t.names ++ l).Nodup) :
    (l.foldl sym t).Linked ∧ (l.foldl sym t).names = t.names ++ l := by
  induction l generalizing t with
  | nil => exact ⟨ht, (List.append_nil _).symm⟩
  | cons s l ih =>
      have hs : s ∉ t.names := fun h =>
        (List.nodup_append.mp hl).2.2 s h s List.mem_cons_self rfl
      obtain ⟨hsym, hnames⟩ := linked_sym ht hs
      have happ : t.names ++ s :: l = (t.sym s).names ++ l := by
        rw [hnames, List.append_assoc]
        rfl
      rw [happ] at hl ⊢
      exact ih hsym hl

theorem wellFormed_setup : pdpSymbolSetup.WellFormed := by
  have hempty : Linked ⟨[], fun _ => [], fun _ => none⟩ :=
    ⟨fun h p hp => absurd hp List.not_mem_nil, fun p hp => absurd hp (Nat.not_lt_zero p),
      List.Pairwise.nil, fun p l hl => by cases hl⟩
  obtain ⟨hlinked, hnames⟩ := linked_foldl_sym (l := predefined) hempty (by decide)
  refine ⟨hlinked, ?_⟩
  show (predefined.foldl sym _).names[0]? = _
  rw [hnames]
  rfl

end Gensym

/-! ## The list of a symbol -/

section Lists

variable {t : SymbolTable}

/-- A list of symbols that are the words `words`. -/
structure Spells (t : SymbolTable) (l : List SymbolPtr) (words : List Symbol) : Prop where
  valid : ∀ q ∈ l, q < t.names.length
  words : l.map t.sName = words

theorem Spells.mono {t' : SymbolTable} {l : List SymbolPtr} {words : List Symbol}
    (h : t.Spells l words) (hext : Extends t t') : t'.Spells l words :=
  ⟨fun q hq => hext.lt (h.valid q hq), by rw [hext.map_sName h.valid, h.words]⟩

theorem Spells.cons {l : List SymbolPtr} {words : List Symbol} {p : SymbolPtr} {s : Symbol}
    (hp : t.Interned p s) (hl : t.Spells l words) : t.Spells (p :: l) (s :: words) := by
  refine ⟨fun q hq => ?_, ?_⟩
  · rcases List.mem_cons.mp hq with rfl | hq
    · exact hp.lt
    · exact hl.valid q hq
  · rw [List.map_cons, hp.name, hl.words]

theorem spells_nil (t : SymbolTable) : t.Spells [] [] :=
  ⟨fun _ hq => absurd hq List.not_mem_nil, rfl⟩

theorem typeToListLoop_spec (cs last : List Char) (ht : t.WellFormed) :
    Grows t (typeToListLoop cs last t).2 ∧
      (typeToListLoop cs last t).2.Spells (typeToListLoop cs last t).1 (typeToListFrom cs last) := by
  induction cs generalizing last t with
  | nil =>
      obtain ⟨hgrows, hword⟩ := pdpGensym_spec ht last
      exact ⟨hgrows, .cons hword (spells_nil _)⟩
  | cons c cs ih =>
      unfold typeToListLoop typeToListFrom
      split
      · obtain ⟨hgrows, hword⟩ := pdpGensym_spec ht last
        obtain ⟨hrest, hspells⟩ := ih [] hgrows.wellFormed
        exact ⟨hgrows.trans hrest, .cons (hword.mono hrest.ext) hspells⟩
      · exact ih (last ++ [c]) ht

theorem typeToList_spec (s : SymbolPtr) (ht : t.WellFormed) :
    Grows t (typeToList s t).2 ∧
      (typeToList s t).2.Spells (typeToList s t).1 (pdpTypeToList (t.sName s)) :=
  typeToListLoop_spec _ [] ht

theorem setTypelist_spec {s : SymbolPtr} {l : List SymbolPtr} (ht : t.WellFormed)
    (hs : s < t.names.length) (hl : t.Spells l (pdpTypeToList (t.sName s))) :
    Grows t (pdpSymbolSetTypelist s l t).2 ∧ (pdpSymbolSetTypelist s l t).2.sType s ≠ none := by
  unfold pdpSymbolSetTypelist
  cases hkept : t.sType s with
  | some l' => exact ⟨.refl ht, by rw [hkept]; exact Option.some_ne_none l'⟩
  | none =>
      refine ⟨⟨⟨⟨ht.chained, ht.linked, ht.distinct, fun p l' hl' => ?_⟩, ht.wildcard⟩,
        List.prefix_refl _, fun p l' hl' => ?_⟩, ?_⟩
      · simp only [Function.update_apply] at hl'
        split at hl'
        · next hp =>
            cases hl'
            exact ⟨hp ▸ hs, hl.valid, hp ▸ hl.words⟩
        · exact ht.types p l' hl'
      · have hne : p ≠ s := by
          rintro rfl
          rw [hkept] at hl'
          cases hl'
        simp only [Function.update_apply, if_neg hne, hl']
      · simp only [Function.update_apply, if_true]
        exact Option.some_ne_none l

theorem setupTypeCache_spec {s : SymbolPtr} (ht : t.WellFormed) (hs : s < t.names.length) :
    Grows t (setupTypeCache s t) ∧ (setupTypeCache s t).sType s ≠ none := by
  obtain ⟨hgrows, hspells⟩ := typeToList_spec s ht
  have hname : (typeToList s t).2.sName s = t.sName s := hgrows.ext.sName hs
  obtain ⟨hset, hkept⟩ := setTypelist_spec hgrows.wellFormed (hgrows.ext.lt hs)
    (l := (typeToList s t).1) (by rw [hname]; exact hspells)
  exact ⟨hgrows.trans hset, hkept⟩

theorem needTypeCache_spec {s : SymbolPtr} (ht : t.WellFormed) (hs : s < t.names.length) :
    Grows t (needTypeCache s t) ∧ (needTypeCache s t).sType s ≠ none := by
  unfold needTypeCache
  split
  · exact setupTypeCache_spec ht hs
  · next hkept => exact ⟨.refl ht, hkept⟩

theorem WellFormed.spells {s : SymbolPtr} (ht : t.WellFormed) (h : t.sType s ≠ none) :
    t.Spells ((t.sType s).getD []) (pdpTypeToList (t.sName s)) := by
  obtain ⟨l, hl⟩ := Option.ne_none_iff_exists'.mp h
  obtain ⟨_, hvalid, hwords⟩ := ht.types s l hl
  rw [hl]
  exact ⟨hvalid, hwords⟩

end Lists

/-! ## Matching -/

section Match

variable {t : SymbolTable}

theorem compareSymbols_spec (ht : t.WellFormed) {ld lp : List SymbolPtr}
    (hd : ∀ q ∈ ld, q < t.names.length) (hp : ∀ q ∈ lp, q < t.names.length) :
    compareWords (ld.map t.sName) (lp.map t.sName) =
      (compareSymbols ld lp).map fun r => (r.1.map t.sName, r.2.map t.sName) := by
  induction ld generalizing lp with
  | nil =>
      cases lp <;> rfl
  | cons d ld ih =>
      cases lp with
      | nil => rfl
      | cons p lp =>
          have hdlt := hd d List.mem_cons_self
          have hplt := hp p List.mem_cons_self
          have hlp : ∀ q ∈ lp, q < t.names.length := fun q hq => hp q (List.mem_cons_of_mem _ hq)
          have hrest := ih (fun q hq => hd q (List.mem_cons_of_mem _ hq)) hlp
          have heq : t.sName d ≠ t.sName p ↔ d ≠ p :=
            not_congr ⟨ht.sName_inj hdlt hplt, fun h => by rw [h]⟩
          simp only [List.map_cons, compareWords, compareSymbols, ht.wildcard_iff hdlt,
            ht.wildcard_iff hplt, heq, hrest]
          split
          · rfl
          · split
            · rfl
            · split <;> rfl

theorem getLast_spec (ht : t.WellFormed) {l : List SymbolPtr}
    (hl : ∀ q ∈ l, q < t.names.length) :
    (l.map t.sName).getLast? = some symWildcard ↔ l.getLast? = some wildcardPtr := by
  rw [List.getLast?_map]
  cases hlast : l.getLast? with
  | none => exact iff_of_false (fun h => by cases h) fun h => by cases h
  | some q =>
      rw [Option.map_some, Option.some_inj, Option.some_inj]
      exact ht.wildcard_iff (hl q (List.mem_of_getLast? hlast))

theorem descriptionMatch_spec (ht : t.WellFormed) {d p : SymbolPtr} (hd : d < t.names.length)
    (hp : p < t.names.length) :
    Grows t (descriptionMatch d p t).2 ∧
      (descriptionMatch d p t).1 = pdpTypeDescriptionMatch (t.sName d) (t.sName p) := by
  unfold descriptionMatch pdpTypeDescriptionMatch
  by_cases he : d = p
  · rw [if_pos he, if_pos (by rw [he])]
    exact ⟨.refl ht, rfl⟩
  · have hname : t.sName d ≠ t.sName p := fun h => he (ht.sName_inj hd hp h)
    rw [if_neg he, if_neg hname]
    obtain ⟨hfirst, hkeptd⟩ := needTypeCache_spec ht hd
    obtain ⟨hsecond, hkeptp⟩ := needTypeCache_spec hfirst.wellFormed (hfirst.ext.lt hp)
    have hgrows := hfirst.trans hsecond
    have hkeptd' : (needTypeCache p (needTypeCache d t)).sType d ≠ none := by
      obtain ⟨l, hl⟩ := Option.ne_none_iff_exists'.mp hkeptd
      rw [hsecond.ext.types d l hl]
      exact Option.some_ne_none l
    refine ⟨hgrows, ?_⟩
    have hwords := hgrows.wellFormed.spells hkeptd'
    have hwordp := hgrows.wellFormed.spells hkeptp
    rw [hgrows.ext.sName hd] at hwords
    rw [hgrows.ext.sName hp] at hwordp
    dsimp only
    generalize (needTypeCache p (needTypeCache d t)).sType d = ld at hwords
    generalize (needTypeCache p (needTypeCache d t)).sType p = lp at hwordp
    rw [← hwords.words, ← hwordp.words,
      compareSymbols_spec hgrows.wellFormed hwords.valid hwordp.valid]
    unfold compareTypes
    simp only [ne_eq, getLast_spec hgrows.wellFormed hwords.valid,
      getLast_spec hgrows.wellFormed hwordp.valid]
    cases compareSymbols (ld.getD []) (lp.getD []) with
    | none => rfl
    | some r =>
        obtain ⟨ad, ap⟩ := r
        cases ad with
        | nil => cases ap <;> simp
        | cons d ad => cases ap <;> simp

theorem Reachable.wellFormed (ht : Reachable t) : t.WellFormed := by
  induction ht with
  | setup => exact wellFormed_setup
  | gensym _ s ih => exact (pdpGensym_spec ih s).1.wellFormed
  | typeToList _ _ ih => exact (typeToList_spec _ ih).1.wellFormed
  | setupTypeCache _ hs ih => exact (setupTypeCache_spec ih hs).1.wellFormed
  | descriptionMatch _ hd hp ih => exact (descriptionMatch_spec ih hd hp).1.wellFormed

end Match

end SymbolTable

/-! ## What a match is -/

/-- Two words that may stand in the same place. -/
def WordsAgree (d p : Symbol) : Prop := d = symWildcard ∨ p = symWildcard ∨ d = p

/-- Words in the same place agree, and a shorter list ends in a wildcard. -/
structure SegmentsMatch (a b : List Symbol) : Prop where
  agree : ∀ (i : Nat) (x y : Symbol), a[i]? = some x → b[i]? = some y → WordsAgree x y
  shorter : a.length < b.length → a.getLast? = some symWildcard
  longer : b.length < a.length → b.getLast? = some symWildcard

theorem WordsAgree.symm {d p : Symbol} (h : WordsAgree d p) : WordsAgree p d := by
  rcases h with h | h | h
  · exact Or.inr (Or.inl h)
  · exact Or.inl h
  · exact Or.inr (Or.inr h.symm)

theorem SegmentsMatch.symm {a b : List Symbol} (h : SegmentsMatch a b) : SegmentsMatch b a :=
  ⟨fun i x y hx hy => (h.agree i y x hy hx).symm, h.longer, h.shorter⟩

theorem typeToListFrom_eq (cs last : List Char) :
    typeToListFrom cs last = cs.splitOnPPrepend (· == '/') last.reverse := by
  induction cs generalizing last with
  | nil => simp [typeToListFrom]
  | cons c cs ih =>
      unfold typeToListFrom
      by_cases hc : c = '/'
      · subst hc
        rw [if_pos rfl, List.splitOnPPrepend_cons_pos (by decide), List.reverse_reverse, ih]
        rfl
      · rw [if_neg hc, List.splitOnPPrepend_cons_neg (by simpa using hc), ih, List.reverse_append]
        rfl

theorem pdpTypeToList_eq (s : Symbol) : pdpTypeToList s = s.splitOn '/' :=
  typeToListFrom_eq s []

theorem agree_cons_iff {d p : Symbol} {a b : List Symbol} :
    (∀ (i : Nat) (x y : Symbol), (d :: a)[i]? = some x → (p :: b)[i]? = some y → WordsAgree x y) ↔
      WordsAgree d p ∧
        ∀ (i : Nat) (x y : Symbol), a[i]? = some x → b[i]? = some y → WordsAgree x y := by
  constructor
  · intro h
    refine ⟨h 0 d p rfl rfl, fun i x y hx hy => h (i + 1) x y ?_ ?_⟩
    · rw [List.getElem?_cons_succ, hx]
    · rw [List.getElem?_cons_succ, hy]
  · rintro ⟨hhead, htail⟩ i x y hx hy
    cases i with
    | zero =>
        cases hx
        cases hy
        exact hhead
    | succ i => exact htail i x y hx hy

/-- The comparison loop comes to an end if the words agree, with what is left of
both. -/
theorem compareWords_eq_some_iff {a b : List Symbol} {r : List Symbol × List Symbol} :
    compareWords a b = some r ↔
      (∀ (i : Nat) (x y : Symbol), a[i]? = some x → b[i]? = some y → WordsAgree x y) ∧
        r = (a.drop b.length, b.drop a.length) := by
  induction a generalizing b with
  | nil =>
      have hnil : compareWords [] b = some ([], b) := by cases b <;> rfl
      rw [hnil, Option.some_inj, List.drop_nil, List.length_nil, List.drop_zero]
      exact ⟨fun h => ⟨fun i x y hx => (by cases hx), h.symm⟩, fun h => h.2.symm⟩
  | cons d a ih =>
      cases b with
      | nil =>
          show some _ = _ ↔ _
          rw [Option.some_inj, List.drop_nil, List.length_nil, List.drop_zero]
          exact ⟨fun h => ⟨fun i x y _ hy => (by cases hy), h.symm⟩, fun h => h.2.symm⟩
      | cons p b =>
          rw [agree_cons_iff, List.length_cons, List.length_cons, List.drop_succ_cons,
            List.drop_succ_cons, and_assoc, ← ih]
          show (if d = symWildcard then compareWords a b
            else if p = symWildcard then compareWords a b
            else if d ≠ p then none else compareWords a b) = some r ↔ _
          generalize compareWords a b = rest
          split
          · next hd => exact ⟨fun h => ⟨Or.inl hd, h⟩, fun h => h.2⟩
          · next hd =>
              split
              · next hp => exact ⟨fun h => ⟨Or.inr (Or.inl hp), h⟩, fun h => h.2⟩
              · next hp =>
                  split
                  · next hne =>
                      refine iff_of_false (fun h => by cases h) fun ⟨h, _⟩ => ?_
                      rcases h with h | h | h
                      · exact hd h
                      · exact hp h
                      · exact hne h
                  · next heq =>
                      exact ⟨fun h => ⟨Or.inr (Or.inr (not_not.mp heq)), h⟩, fun h => h.2⟩

/-- On names, `pdp_type_description_match` is the rule. -/
theorem pdpTypeDescriptionMatch_iff (a b : Symbol) :
    pdpTypeDescriptionMatch a b = true ↔ SegmentsMatch (a.splitOn '/') (b.splitOn '/') := by
  unfold pdpTypeDescriptionMatch
  rw [pdpTypeToList_eq, pdpTypeToList_eq]
  split
  · next he =>
      subst he
      refine iff_of_true rfl ⟨fun i x y hx hy => ?_, fun h => absurd h (Nat.lt_irrefl _),
        fun h => absurd h (Nat.lt_irrefl _)⟩
      rw [hx] at hy
      exact Or.inr (Or.inr (Option.some_inj.mp hy))
  · generalize a.splitOn '/' = ld
    generalize b.splitOn '/' = lp
    cases hcmp : compareWords ld lp with
    | none =>
        refine iff_of_false (fun h => by cases h) fun h => ?_
        have := compareWords_eq_some_iff.mpr ⟨h.agree, rfl⟩
        rw [hcmp] at this
        cases this
    | some r =>
        obtain ⟨hagree, rfl⟩ := compareWords_eq_some_iff.mp hcmp
        have hrule : SegmentsMatch ld lp ↔
            (ld.length < lp.length → ld.getLast? = some symWildcard) ∧
              (lp.length < ld.length → lp.getLast? = some symWildcard) :=
          ⟨fun h => ⟨h.shorter, h.longer⟩, fun h => ⟨hagree, h.1, h.2⟩⟩
        have hd : ld.drop lp.length = [] ↔ ¬lp.length < ld.length := by
          rw [List.drop_eq_nil_iff, Nat.not_lt]
        have hp : lp.drop ld.length = [] ↔ ¬ld.length < lp.length := by
          rw [List.drop_eq_nil_iff, Nat.not_lt]
        rw [hrule]
        generalize ld.drop lp.length = ad at hd
        generalize lp.drop ld.length = ap at hp
        -- at most one of the two lists goes on
        cases ad with
        | nil =>
            have hle := hd.mp rfl
            cases ap with
            | nil => exact iff_of_true rfl ⟨fun h => absurd h (hp.mp rfl), fun h => absurd h hle⟩
            | cons q ap =>
                have hlt : ld.length < lp.length := not_not.mp fun h => by cases hp.mpr h
                simp [hlt, hle]
        | cons q ad =>
            have hlt : lp.length < ld.length := not_not.mp fun h => by cases hd.mpr h
            have hle : ¬ld.length < lp.length := Nat.not_lt.mpr (Nat.le_of_lt hlt)
            rw [hp.mpr hle]
            simp [hlt, hle]

namespace SymbolTable

/-- In any table that the symbol functions lead to, `pdp_type_description_match`
of two symbols is the rule for their names; the order of the two makes no
difference, nor does the table. -/
theorem descriptionMatch_iff {t : SymbolTable} (ht : Reachable t) {a b : Symbol}
    {d p : SymbolPtr} (hd : t.Interned d a) (hp : t.Interned p b) :
    ((descriptionMatch d p t).1 = true ↔ SegmentsMatch (a.splitOn '/') (b.splitOn '/')) ∧
      (descriptionMatch p d t).1 = (descriptionMatch d p t).1 ∧
      ∀ t', Reachable t' → ∀ d' p', t'.Interned d' a → t'.Interned p' b →
        (descriptionMatch d' p' t').1 = (descriptionMatch d p t).1 := by
  have hall : ∀ {t' : SymbolTable}, Reachable t' → ∀ {x y : Symbol} {d' p' : SymbolPtr},
      t'.Interned d' x → t'.Interned p' y →
      (descriptionMatch d' p' t').1 = pdpTypeDescriptionMatch x y := by
    intro t' ht' x y d' p' hd' hp'
    rw [(descriptionMatch_spec ht'.wellFormed hd'.lt hp'.lt).2, hd'.name, hp'.name]
  refine ⟨?_, ?_, fun t' ht' d' p' hd' hp' => ?_⟩
  · rw [hall ht hd hp]
    exact pdpTypeDescriptionMatch_iff a b
  · rw [hall ht hp hd, hall ht hd hp, Bool.eq_iff_iff, pdpTypeDescriptionMatch_iff,
      pdpTypeDescriptionMatch_iff]
    exact ⟨SegmentsMatch.symm, SegmentsMatch.symm⟩
  · rw [hall ht' hd' hp', hall ht hd hp]

/-- The predefined symbols, an image type that has been split, and a template
for it that has not. -/
def imageTable : SymbolTable :=
  setupTypeCache 24
    (pdpGensym "image/*".toList (pdpGensym "image/grey/8x8".toList pdpSymbolSetup).2).2

theorem reachable_imageTable : Reachable imageTable :=
  .setupTypeCache (.gensym (.gensym .setup _) _) (by decide +kernel)

theorem interned_image : imageTable.Interned 24 "image/grey/8x8".toList :=
  ⟨by decide +kernel, by decide +kernel⟩

theorem interned_template : imageTable.Interned 25 "image/*".toList :=
  ⟨by decide +kernel, by decide +kernel⟩

/-- The two match. -/
theorem descriptionMatch_iff_image : (descriptionMatch 24 25 imageTable).1 = true ∧
    SegmentsMatch ("image/grey/8x8".toList.splitOn '/') ("image/*".toList.splitOn '/') ∧
    (descriptionMatch 25 24 imageTable).1 = true := by
  have hmatch : (descriptionMatch 24 25 imageTable).1 = true := by decide +kernel
  obtain ⟨hrule, hswap, _⟩ :=
    descriptionMatch_iff reachable_imageTable interned_image interned_template
  exact ⟨hmatch, hrule.mp hmatch, hswap.trans hmatch⟩

end SymbolTable

end PureDataPacket
