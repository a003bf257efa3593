/-
# `PureDataPacket.Kernel.SymbolHash` — the links of the symbol table

In `Kernel.Interning` a bucket of the hash table has a list of symbols.  Here it is what it is in
memory: a bucket points to a symbol, each symbol has a link field, and a new symbol is written to
the link with which the search has ended.  The nodes of the predefined symbols, and of other
callers, are not allocated by the table; their link field is written in place.

`Represents` says that the links spell the lists; `call_answers` that a call on the links is the
one on the lists.  What holds for all sequences of calls is `gensym_stable`.

| | |
| :-- | :-- |
| `Represents` | the links spell the lists |
| `search_eq` | the search finds the first symbol with the name, or the end of the chain |
| `answers_link` | a new symbol is linked |
| `supplied_answers` | a symbol that the caller supplies is linked |
| `Stable` | what is owed after some calls |
-/
import PureDataPacket.Kernel.Interning
import PureDataPacket.Lib.Chain
import Mathlib.Data.List.Find
import Mathlib.Data.List.Perm.Subperm

namespace PureDataPacket

/-- `t_pdp_symbol **`: a bucket, or the link field of a symbol. -/
inductive SymbolLink where
  | bucket (h : Nat)
  | next (p : SymbolPtr)

/-- The symbols with their names and link fields, and `pdp_symhash`. -/
structure SymbolHash where
  names : List Symbol
  sNext : SymbolPtr → Option SymbolPtr
  pdpSymhash : Nat → Option SymbolPtr

/-- How the search for a name ends. -/
inductive SymbolSearch where
  | gotit (p : SymbolPtr)
  /-- the link that is null -/
  | missing (sym1 : SymbolLink)

/-- A call of `_pdp_dogensym`: without a symbol, or with one that the caller has initialised and
given this name. -/
inductive SymbolCall where
  | gensym (s : Symbol)
  | supplied (s : Symbol)

/-- The name that is asked for. -/
def SymbolCall.name : SymbolCall → Symbol
  | .gensym s => s
  | .supplied s => s

namespace SymbolHash

/-- `s_name`. -/
def sName (t : SymbolHash) (p : SymbolPtr) : Symbol := t.names.getD p []

/-- `*sym1`. -/
def follow (t : SymbolHash) : SymbolLink → Option SymbolPtr
  | .bucket h => t.pdpSymhash h
  | .next p => t.sNext p

/-- `*sym1 = sym2`. -/
def store (t : SymbolHash) (sym1 : SymbolLink) (sym2 : SymbolPtr) : SymbolHash :=
  match sym1 with
  | .bucket h => { t with pdpSymhash := Function.update t.pdpSymhash h (some sym2) }
  | .next p => { t with sNext := Function.update t.sNext p (some sym2) }

/-- `_pdp_symbol_init`, and a name. -/
def alloc (t : SymbolHash) (s : Symbol) : SymbolHash :=
  { t with names := t.names ++ [s], sNext := Function.update t.sNext t.names.length none }

/-- The loop of `_pdp_dogensym`, bounded: one that takes more steps than there are symbols never
ends. -/
def search (t : SymbolHash) (s : Symbol) : Nat → SymbolLink → Option SymbolSearch
  | 0, _ => none
  | n + 1, sym1 =>
      match t.follow sym1 with
      | none => some (.missing sym1)
      | some sym2 => if t.sName sym2 = s then some (.gotit sym2) else t.search s n (.next sym2)

/-- `_pdp_dogensym`. -/
def pdpDogensym (s : Symbol) (oldsym : Option SymbolPtr) (t : SymbolHash) :
    Option (SymbolPtr × SymbolHash) :=
  match t.search s (t.names.length + 1) (.bucket (bucketOf s)) with
  | none => none
  | some (.gotit sym2) => some (sym2, t)
  | some (.missing sym1) =>
      match oldsym with
      | some sym2 => some (sym2, t.store sym1 sym2)
      | none => some (t.names.length, (t.alloc s).store sym1 t.names.length)

/-- `pdp_gensym`. -/
def pdpGensym (s : Symbol) (t : SymbolHash) : Option (SymbolPtr × SymbolHash) :=
  pdpDogensym s none t

/-- A call with a symbol of the caller. -/
def supply (s : Symbol) (t : SymbolHash) : Option (SymbolPtr × SymbolHash) :=
  pdpDogensym s (some t.names.length) (t.alloc s)

/-- `_sym`, with its assertion. -/
def sym (t : SymbolHash) (name : Symbol) : Option SymbolHash :=
  match supply name t with
  | none => none
  | some (realsym, t') => if realsym = t.names.length then some t' else none

/-- `pdp_symbol_setup`. -/
def pdpSymbolSetup : Option SymbolHash :=
  SymbolTable.predefined.foldlM sym ⟨[], fun _ => none, fun _ => none⟩

/-- The inner loop of `pdp_symbol_apply_all`: the symbols that `it` is called with. -/
def visit (t : SymbolHash) : Nat → Option SymbolPtr → Option (List SymbolPtr)
  | 0, _ => none
  | _ + 1, none => some []
  | n + 1, some s => (t.visit n (t.sNext s)).map fun l => s :: l

/-- `pdp_symbol_apply_all`. -/
def pdpSymbolApplyAll (t : SymbolHash) : Option (List SymbolPtr) :=
  ((List.range hashsize).mapM fun i => t.visit (t.names.length + 1) (t.pdpSymhash i)).map
    List.flatten

def call (c : SymbolCall) (t : SymbolHash) : Option (SymbolPtr × SymbolHash) :=
  match c with
  | .gensym s => pdpGensym s t
  | .supplied s => supply s t

/-- What the calls return, one after the other. -/
def run : List SymbolCall → SymbolHash → Option (List SymbolPtr × SymbolHash)
  | [], t => some ([], t)
  | c :: calls, t => do
      let (p, t) ← call c t
      let (rest, t) ← run calls t
      return (p :: rest, t)

/-- What is owed after these calls, which have returned `returned` and led from `t₀` to `t`. -/
structure Stable (t₀ : SymbolHash) (calls : List SymbolCall) (returned : List SymbolPtr)
    (t : SymbolHash) : Prop where
  /-- Two calls return the same pointer if and only if their strings are equal. -/
  injective : ∀ (i j : Nat) (c d : SymbolCall) (p q : SymbolPtr), calls[i]? = some c →
    calls[j]? = some d → returned[i]? = some p → returned[j]? = some q → (p = q ↔ c.name = d.name)
  /-- The predefined symbols are returned for their names. -/
  predefined : ∀ (i k : Nat) (c : SymbolCall), calls[i]? = some c →
    SymbolTable.predefined[k]? = some c.name → returned[i]? = some k
  /-- What is returned has the name that was asked for. -/
  named : ∀ (i : Nat) (c : SymbolCall) (p : SymbolPtr), calls[i]? = some c →
    returned[i]? = some p → t.sName p = c.name
  /-- No name changes. -/
  names : ∀ before after, calls = before ++ after → ∃ returned₁ t₁,
    run before t₀ = some (returned₁, t₁) ∧ returned₁ <+: returned ∧
      ∀ p < t₁.names.length, t.sName p = t₁.sName p
  /-- The chains end, and no name is in one of them twice. -/
  chains : ∀ h < hashsize, ∃ l, Chained t.sNext (t.pdpSymhash h) l ∧ (l.map t.sName).Nodup
  /-- `pdp_symbol_apply_all` comes to each symbol once. -/
  visited : ∃ l, t.pdpSymbolApplyAll = some l ∧ l.Nodup ∧
    ∀ p, p ∈ l ↔ p < SymbolTable.predefined.length ∨ p ∈ returned

end SymbolHash

/-! ## The lists -/

namespace SymbolTable

variable {T T' T'' : SymbolTable} {s s' : Symbol} {p q : SymbolPtr}

/-- This symbol is in its chain, with this name. -/
structure Has (T : SymbolTable) (p : SymbolPtr) (s : Symbol) : Prop where
  mem : p ∈ T.chains (bucketOf s)
  name : T.sName p = s

/-- What is in a chain belongs there, and no name is in a chain twice.  There may be symbols that
are in no chain. -/
structure Proper (T : SymbolTable) : Prop where
  lt : ∀ h, ∀ p ∈ T.chains h, p < T.names.length
  bucket : ∀ h, ∀ p ∈ T.chains h, bucketOf (T.sName p) = h
  once : ∀ h, ((T.chains h).map T.sName).Nodup

/-- Names stay, and so does what is in the chains. -/
structure Keeps (T T' : SymbolTable) : Prop where
  names : T.names <+: T'.names
  chains : ∀ h, T.chains h <+: T'.chains h

theorem Keeps.refl (T : SymbolTable) : Keeps T T :=
  ⟨List.prefix_refl _, fun _ => List.prefix_refl _⟩

theorem Keeps.trans (h : Keeps T T') (h' : Keeps T' T'') : Keeps T T'' :=
  ⟨h.names.trans h'.names, fun b => (h.chains b).trans (h'.chains b)⟩

theorem Keeps.sName (h : Keeps T T') (hp : p < T.names.length) : T'.sName p = T.sName p := by
  obtain ⟨new, hnew⟩ := h.names
  refine sName_of_getElem ?_
  rw [← hnew, List.getElem?_append_left hp, sName_eq hp]

theorem Has.lt (h : T.Has p s) (hT : T.Proper) : p < T.names.length := hT.lt _ p h.mem

theorem Has.mono (h : T.Has p s) (hT : T.Proper) (hkeeps : Keeps T T') : T'.Has p s :=
  ⟨(hkeeps.chains _).subset h.mem, (hkeeps.sName (h.lt hT)).trans h.name⟩

theorem Has.unique (h : T.Has p s) (h' : T.Has q s) (hT : T.Proper) : p = q :=
  List.inj_on_of_nodup_map (hT.once _) h.mem h'.mem (h.name.trans h'.name.symm)

theorem Proper.alloc (hT : T.Proper) (s : Symbol) : (T.alloc s).Proper ∧ Keeps T (T.alloc s) := by
  have hkeeps : Keeps T (T.alloc s) := ⟨List.prefix_append _ _, fun _ => List.prefix_refl _⟩
  refine ⟨⟨fun h p hp => Nat.lt_of_lt_of_le (hT.lt h p hp) hkeeps.names.length_le,
    fun h p hp => ?_, fun h => ?_⟩, hkeeps⟩
  · rw [hkeeps.sName (hT.lt h p hp)]
    exact hT.bucket h p hp
  · have hsame : (T.chains h).map (T.alloc s).sName = (T.chains h).map T.sName :=
      List.map_congr_left fun p hp => hkeeps.sName (hT.lt h p hp)
    show ((T.chains h).map (T.alloc s).sName).Nodup
    rw [hsame]
    exact hT.once h

theorem sName_alloc (T : SymbolTable) (s : Symbol) : (T.alloc s).sName T.names.length = s :=
  sName_of_getElem List.getElem?_concat_length

theorem Proper.link (hT : T.Proper) (hp : p < T.names.length)
    (hnew : ∀ q ∈ T.chains (bucketOf (T.sName p)), T.sName q ≠ T.sName p) :
    (T.link (bucketOf (T.sName p)) p).Proper ∧ Keeps T (T.link (bucketOf (T.sName p)) p) := by
  have hkeeps : Keeps T (T.link (bucketOf (T.sName p)) p) := by
    refine ⟨List.prefix_refl _, fun h => ?_⟩
    rw [chains_link]
    split
    · next hh =>
        rw [hh]
        exact List.prefix_append _ _
    · exact List.prefix_refl _
  refine ⟨⟨fun h q hq => ?_, fun h q hq => ?_, fun h => ?_⟩, hkeeps⟩
  · rw [chains_link] at hq
    split at hq
    · next hh =>
        rcases List.mem_append.mp hq with hq | hq
        · exact hT.lt _ q hq
        · rw [List.mem_singleton.mp hq]
          exact hp
    · exact hT.lt h q hq
  · rw [chains_link] at hq
    split at hq
    · next hh =>
        rcases List.mem_append.mp hq with hq | hq
        · exact (hT.bucket _ q hq).trans hh.symm
        · rw [List.mem_singleton.mp hq]
          exact hh.symm
    · exact hT.bucket h q hq
  · rw [chains_link]
    split
    · show ((T.chains _ ++ [p]).map T.sName).Nodup
      rw [List.map_append]
      refine List.nodup_append.mpr ⟨hT.once _, List.nodup_singleton _, ?_⟩
      rintro a ha b hb rfl
      obtain ⟨q, hq, rfl⟩ := List.mem_map.mp ha
      exact hnew q hq (List.mem_singleton.mp hb)
    · exact hT.once h

end SymbolTable

/-! ## The links -/

namespace SymbolHash

variable {t t' : SymbolHash} {T : SymbolTable} {s : Symbol} {l : List SymbolPtr}

/-- The link at the end of a chain. -/
def endOf : SymbolLink → List SymbolPtr → SymbolLink
  | sym1, [] => sym1
  | _, p :: l => endOf (.next p) l

theorem endOf_concat (sym1 : SymbolLink) (l : List SymbolPtr) (p : SymbolPtr) :
    endOf sym1 (l ++ [p]) = .next p := by
  induction l generalizing sym1 with
  | nil => rfl
  | cons q l ih => exact ih (.next q)

theorem search_eq {n : Nat} {sym1 : SymbolLink} (h : Chained t.sNext (t.follow sym1) l)
    (hn : l.length < n) : t.search s n sym1 = some (match l.find? fun p => t.sName p = s with
      | some p => .gotit p
      | none => .missing (endOf sym1 l)) := by
  induction l generalizing n sym1 with
  | nil =>
      obtain ⟨n, rfl⟩ : ∃ k, n = k + 1 := ⟨n - 1, by omega⟩
      unfold search
      rw [h.head]
      rfl
  | cons p l ih =>
      obtain ⟨n, rfl⟩ : ∃ k, n = k + 1 := ⟨n - 1, by omega⟩
      rw [List.length_cons] at hn
      unfold search
      rw [h.head]
      by_cases hname : t.sName p = s
      · have hfind : (p :: l).find? (fun p => t.sName p = s) = some p :=
          List.find?_cons_of_pos (by simpa using hname)
        rw [hfind]
        exact if_pos hname
      · have hfind : (p :: l).find? (fun p => t.sName p = s) = l.find? fun p => t.sName p = s :=
          List.find?_cons_of_neg (by simpa using hname)
        rw [hfind]
        have hrest : Chained t.sNext (t.follow (.next p)) l := h.tail
        exact (if_neg hname).trans (ih hrest (by omega))

theorem visit_eq {n : Nat} {p : Option SymbolPtr} (h : Chained t.sNext p l) (hn : l.length < n) :
    t.visit n p = some l := by
  induction h generalizing n with
  | nil =>
      obtain ⟨n, rfl⟩ : ∃ k, n = k + 1 := ⟨n - 1, by omega⟩
      rfl
  | @cons p l _ ih =>
      obtain ⟨n, rfl⟩ : ∃ k, n = k + 1 := ⟨n - 1, by omega⟩
      rw [List.length_cons] at hn
      unfold visit
      rw [ih (by omega)]
      rfl

/-- The links spell the lists. -/
structure Represents (t : SymbolHash) (T : SymbolTable) : Prop where
  names : t.names = T.names
  chains : ∀ h, Chained t.sNext (t.pdpSymhash h) (T.chains h)

theorem Represents.sName (h : Represents t T) : t.sName = T.sName := by
  funext p
  unfold SymbolHash.sName SymbolTable.sName
  rw [h.names]

theorem Represents.length_chain (h : Represents t T) (hT : T.Proper) (b : Nat) :
    (T.chains b).length < t.names.length + 1 := by
  have hsub : T.chains b ⊆ List.range t.names.length := fun p hp => by
    rw [h.names]
    exact List.mem_range.mpr (hT.lt b p hp)
  have hle := (List.subperm_of_subset (h.chains b).nodup hsub).length_le
  rw [List.length_range] at hle
  omega

theorem Represents.alloc (h : Represents t T) (hT : T.Proper) (s : Symbol) :
    Represents (t.alloc s) (T.alloc s) where
  names := by
    show t.names ++ [s] = T.names ++ [s]
    rw [h.names]
  chains b := (h.chains b).congr fun p hp => by
    have hlt := hT.lt b p hp
    rw [← h.names] at hlt
    exact Function.update_of_ne (Nat.ne_of_lt hlt) ..

/-- A symbol in no chain is written to the end of one. -/
theorem Represents.link {p : SymbolPtr} {b : Nat} (h : Represents t T) (hT : T.Proper)
    (hnull : t.sNext p = none) (hout : ∀ b', p ∉ T.chains b') :
    Represents (t.store (endOf (.bucket b) (T.chains b)) p) (T.link b p) where
  names := by
    have hnames : ∀ sym1, (t.store sym1 p).names = t.names := fun sym1 => by
      cases sym1 with
      | bucket _ => rfl
      | next _ => rfl
    rw [hnames]
    exact h.names
  chains b' := by
    have hp : Chained t.sNext (some p) [p] := .cons (hnull ▸ .nil)
    rw [SymbolTable.chains_link]
    rcases List.eq_nil_or_concat (T.chains b) with hb | ⟨l, c, hb⟩
    · rw [hb]
      show Chained t.sNext (Function.update t.pdpSymhash b (some p) b') _
      rw [Function.update_apply]
      split
      · exact hp
      · exact h.chains b'
    · rw [List.concat_eq_append] at hb
      rw [hb, endOf_concat]
      show Chained (Function.update t.sNext c (some p)) (t.pdpSymhash b') _
      have hc : c ∈ T.chains b := hb ▸ List.mem_append_right l List.mem_cons_self
      split
      · next hbb =>
          have hchain := h.chains b
          rw [hb, ← hbb] at hchain
          have hapart : ∀ d ∈ [p], d ≠ c := fun d hd hdc => by
            rw [List.mem_singleton.mp hd] at hdc
            exact hout b (hdc ▸ hc)
          have happend := hchain.append hp hapart
          rwa [List.append_assoc]
      · next hbb =>
          -- A symbol of another chain is in another bucket.
          refine (h.chains b').congr fun d hd => Function.update_of_ne ?_ ..
          rintro rfl
          exact hbb ((hT.bucket b' d hd).symm.trans (hT.bucket b d hc))

/-- What a call returns, and the lists after it. -/
structure Answers (T : SymbolTable) (s : Symbol) (p : SymbolPtr) (t' : SymbolHash)
    (T' : SymbolTable) : Prop where
  represents : Represents t' T'
  proper : T'.Proper
  keeps : SymbolTable.Keeps T T'
  has : T'.Has p s
  /-- Nothing else gets into a chain. -/
  others : ∀ b, ∀ q ∈ T'.chains b, q ∈ T.chains b ∨ q = p
  /-- For a new name there is one more symbol. -/
  fresh : (∀ q, ¬T.Has q s) → p = T.names.length ∧ T'.names.length = T.names.length + 1

theorem has_of_find {p : SymbolPtr}
    (h : (T.chains (bucketOf s)).find? (fun p => T.sName p = s) = some p) : T.Has p s :=
  ⟨List.mem_of_find?_eq_some h, by simpa using List.find?_some h⟩

/-- The new symbol, in the table that has it in no chain, is linked. -/
theorem answers_link (h : Represents t T) (hT : T.Proper)
    (hnone : (T.chains (bucketOf s)).find? (fun p => T.sName p = s) = none) :
    Answers T s T.names.length ((t.alloc s).store (endOf (.bucket (bucketOf s))
      (T.chains (bucketOf s))) t.names.length)
      ((T.alloc s).link (bucketOf s) T.names.length) := by
  obtain ⟨hproper, hkeeps⟩ := hT.alloc s
  have hname := SymbolTable.sName_alloc T s
  have hlt : T.names.length < (T.alloc s).names.length := by
    show _ < (T.names ++ [s]).length
    rw [List.length_append]
    exact Nat.lt_succ_self _
  have hout : ∀ b, T.names.length ∉ (T.alloc s).chains b := fun b hmem =>
    Nat.lt_irrefl _ (hT.lt b _ hmem)
  have hnew : ∀ q ∈ (T.alloc s).chains (bucketOf s), (T.alloc s).sName q ≠ s := by
    intro q hq hqs
    rw [hkeeps.sName (hT.lt _ q hq)] at hqs
    exact List.find?_eq_none.mp hnone q hq (decide_eq_true hqs)
  have hnull : (t.alloc s).sNext T.names.length = none := by
    rw [← h.names]
    exact Function.update_self ..
  have hlinked := hproper.link (p := T.names.length) hlt (by rwa [hname])
  rw [hname] at hlinked
  refine ⟨?_, hlinked.1, hkeeps.trans hlinked.2, ⟨?_, ?_⟩, fun b q hq => ?_,
    fun _ => ⟨rfl, List.length_append⟩⟩
  · rw [h.names]
    exact (h.alloc hT s).link hproper hnull hout
  · rw [SymbolTable.chains_link, if_pos rfl]
    exact List.mem_append_right _ List.mem_cons_self
  · exact (hlinked.2.sName hlt).trans hname
  · rw [SymbolTable.chains_link] at hq
    split at hq
    · next hb =>
        rw [hb]
        rcases List.mem_append.mp hq with hq | hq
        · exact Or.inl hq
        · exact Or.inr (List.mem_singleton.mp hq)
    · exact Or.inl hq

def callLists (c : SymbolCall) (T : SymbolTable) : SymbolPtr × SymbolTable :=
  match c with
  | .gensym s => T.pdpGensym s
  | .supplied s => (T.alloc s).pdpDogensym s (some T.names.length)

/-- The search on the links is the search on the lists. -/
theorem search_represents (h : Represents t T) (hT : T.Proper) (s : Symbol) :
    t.search s (t.names.length + 1) (.bucket (bucketOf s)) =
      some (match (T.chains (bucketOf s)).find? fun p => T.sName p = s with
        | some p => .gotit p
        | none => .missing (endOf (.bucket (bucketOf s)) (T.chains (bucketOf s)))) := by
  rw [← h.sName]
  exact search_eq (h.chains _) (h.length_chain hT _)

theorem gensym_answers (h : Represents t T) (hT : T.Proper) (s : Symbol) :
    ∃ p t' T', T.pdpGensym s = (p, T') ∧ call (.gensym s) t = some (p, t') ∧
      Answers T s p t' T' := by
  have hs := search_represents h hT s
  cases hfind : (T.chains (bucketOf s)).find? fun p => T.sName p = s with
  | some p =>
      rw [hfind] at hs
      refine ⟨p, t, T, ?_, ?_, h, hT, .refl T, has_of_find hfind, fun b q hq => Or.inl hq,
        fun hno => absurd (has_of_find hfind) (hno p)⟩
      · show SymbolTable.pdpDogensym s none T = _
        unfold SymbolTable.pdpDogensym
        rw [hfind]
      · show pdpDogensym s none t = _
        unfold pdpDogensym
        rw [hs]
  | none =>
      rw [hfind] at hs
      refine ⟨_, _, _, ?_, ?_, answers_link h hT hfind⟩
      · show SymbolTable.pdpDogensym s none T = _
        unfold SymbolTable.pdpDogensym
        rw [hfind]
      · show pdpDogensym s none t = _
        unfold pdpDogensym
        rw [hs, h.names]

/-- The symbol that is supplied has been allocated before, and is in no chain. -/
theorem supplied_answers (h : Represents t T) (hT : T.Proper) (s : Symbol) :
    ∃ p t' T', (T.alloc s).pdpDogensym s (some T.names.length) = (p, T') ∧
      call (.supplied s) t = some (p, t') ∧ Answers T s p t' T' := by
  obtain ⟨hproper, hkeeps⟩ := hT.alloc s
  have hs := search_represents (h.alloc hT s) hproper s
  have hfind' : ((T.alloc s).chains (bucketOf s)).find? (fun p => (T.alloc s).sName p = s) =
      (T.chains (bucketOf s)).find? fun p => T.sName p = s := by
    refine List.find?_congr fun p hp => ?_
    rw [hkeeps.sName (hT.lt _ p hp)]
  rw [hfind'] at hs
  cases hfind : (T.chains (bucketOf s)).find? fun p => T.sName p = s with
  | some p =>
      rw [hfind] at hs
      refine ⟨p, t.alloc s, T.alloc s, ?_, ?_, h.alloc hT s, hproper, hkeeps,
        (has_of_find hfind).mono hT hkeeps, fun b q hq => Or.inl hq,
        fun hno => absurd (has_of_find hfind) (hno p)⟩
      · show SymbolTable.pdpDogensym s (some T.names.length) (T.alloc s) = _
        unfold SymbolTable.pdpDogensym
        rw [hfind', hfind]
      · show pdpDogensym s (some t.names.length) (t.alloc s) = _
        unfold pdpDogensym
        rw [hs]
  | none =>
      rw [hfind] at hs
      refine ⟨_, _, _, ?_, ?_, answers_link h hT hfind⟩
      · show SymbolTable.pdpDogensym s (some T.names.length) (T.alloc s) = _
        unfold SymbolTable.pdpDogensym
        rw [hfind', hfind]
      · show pdpDogensym s (some t.names.length) (t.alloc s) = _
        unfold pdpDogensym
        rw [hs, h.names]
        rfl

/-- `_pdp_dogensym` on the links is `_pdp_dogensym` on the lists. -/
theorem call_answers (h : Represents t T) (hT : T.Proper) (c : SymbolCall) :
    ∃ p t' T', callLists c T = (p, T') ∧ call c t = some (p, t') ∧
      Answers T c.name p t' T' := by
  cases c with
  | gensym s => exact gensym_answers h hT s
  | supplied s => exact supplied_answers h hT s

/-! ## Runs -/

variable {calls calls' : List SymbolCall} {returned : List SymbolPtr}

/-- What holds after some calls: what they have returned is in the chains, and so are the
predefined symbols, and nothing else. -/
structure After (T : SymbolTable) (calls : List SymbolCall) (returned : List SymbolPtr) :
    Prop where
  proper : T.Proper
  has : List.Forall₂ (fun c p => T.Has p (SymbolCall.name c)) calls returned
  predefined : ∀ (k : Nat) s, SymbolTable.predefined[k]? = some s → T.Has k s
  others : ∀ b, ∀ q ∈ T.chains b, q < SymbolTable.predefined.length ∨ q ∈ returned

theorem run_append (calls calls' : List SymbolCall) (t : SymbolHash) :
    run (calls ++ calls') t = (run calls t).bind fun r =>
      (run calls' r.2).map fun r' => (r.1 ++ r'.1, r'.2) := by
  induction calls generalizing t with
  | nil =>
      show run calls' t = (run calls' t).map fun r' => ([] ++ r'.1, r'.2)
      simp only [List.nil_append, Option.map_id']
  | cons c calls ih =>
      simp only [List.cons_append, run, ih, Option.bind_eq_bind]
      cases call c t with
      | none => rfl
      | some r =>
          simp only [Option.bind_some]
          cases run calls r.2 with
          | none => rfl
          | some r' =>
              simp only [Option.bind_some]
              show ((run calls' r'.2).map fun r'' => (r'.1 ++ r''.1, r''.2)).bind _ =
                (run calls' r'.2).map fun r'' => (r.1 :: r'.1 ++ r''.1, r''.2)
              cases run calls' r'.2 with
              | none => rfl
              | some r'' => rfl

theorem run_after (calls' : List SymbolCall) (h : Represents t T)
    (hafter : After T calls returned) : ∃ returned' t' T', run calls' t = some (returned', t') ∧
      Represents t' T' ∧ SymbolTable.Keeps T T' ∧
      After T' (calls ++ calls') (returned ++ returned') := by
  induction calls' generalizing t T calls returned with
  | nil =>
      refine ⟨[], t, T, rfl, h, .refl T, ?_⟩
      rwa [List.append_nil, List.append_nil]
  | cons c calls' ih =>
      obtain ⟨p, t₁, T₁, _, hcall, ho⟩ := call_answers h hafter.proper c
      have hfirst : After T₁ (calls ++ [c]) (returned ++ [p]) := by
        refine ⟨ho.proper, ?_, fun k s hk => (hafter.predefined k s hk).mono hafter.proper ho.keeps,
          fun b q hq => ?_⟩
        · refine List.rel_append (hafter.has.imp fun c q hq => ?_) (.cons ho.has .nil)
          exact hq.mono hafter.proper ho.keeps
        · rcases ho.others b q hq with hold | rfl
          · exact (hafter.others b q hold).imp_right fun hmem => List.mem_append_left _ hmem
          · exact Or.inr (List.mem_append_right _ List.mem_cons_self)
      obtain ⟨returned', t', T', hrun, hrep, hkeeps, hlast⟩ := ih ho.represents hfirst
      refine ⟨p :: returned', t', T', ?_, hrep, ho.keeps.trans hkeeps, ?_⟩
      · unfold run
        rw [hcall]
        simp only [Option.bind_eq_bind, Option.bind_some, hrun]
        rfl
      · rwa [List.append_assoc, List.append_assoc] at hlast

/-- The predefined symbols are in the chains, each at its place, and nothing else. -/
structure SetUp (T : SymbolTable) (done : List Symbol) : Prop where
  proper : T.Proper
  length : T.names.length = done.length
  has : ∀ (k : Nat) s, done[k]? = some s → T.Has k s
  others : ∀ b, ∀ q ∈ T.chains b, q < done.length

/-- `_sym` with a new name. -/
theorem sym_spec {name : Symbol} {done : List Symbol} (h : Represents t T) (hdone : SetUp T done)
    (hname : name ∉ done) :
    ∃ t' T', sym t name = some t' ∧ Represents t' T' ∧ SetUp T' (done ++ [name]) := by
  obtain ⟨p, t', T', _, hcall, ho⟩ := call_answers h hdone.proper (.supplied name)
  have hnew : ∀ q, ¬T.Has q name := fun q hq => by
    obtain ⟨s, hs⟩ : ∃ s, done[q]? = some s :=
      ⟨_, List.getElem?_eq_getElem (hdone.others _ q hq.mem)⟩
    have hsame : name = s := hq.name.symm.trans (hdone.has q s hs).name
    exact hname (hsame ▸ List.mem_of_getElem? hs)
  obtain ⟨rfl, hlength⟩ := ho.fresh hnew
  refine ⟨t', T', ?_, ho.represents, ho.proper, ?_, fun k s hk => ?_, fun b q hq => ?_⟩
  · have hsupply : supply name t = some (T.names.length, t') := hcall
    unfold sym
    rw [hsupply, h.names]
    exact if_pos rfl
  · rw [hlength, hdone.length, List.length_append]
    rfl
  · rcases Nat.lt_or_ge k done.length with hlt | hge
    · rw [List.getElem?_append_left hlt] at hk
      exact (hdone.has k s hk).mono hdone.proper ho.keeps
    · rw [List.getElem?_append_right hge] at hk
      obtain ⟨i, hi⟩ : ∃ i, k - done.length = i := ⟨_, rfl⟩
      rw [hi] at hk
      cases i with
      | zero =>
          obtain rfl := Option.some.inj hk
          have hk' : k = T.names.length := by
            rw [hdone.length]
            omega
          rw [hk']
          exact ho.has
      | succ i => cases hk
  · rw [List.length_append]
    rcases ho.others b q hq with hold | rfl
    · exact Nat.lt_succ_of_lt (hdone.others b q hold)
    · rw [hdone.length]
      exact Nat.lt_succ_self _

theorem foldlM_sym {l done : List Symbol} (h : Represents t T) (hdone : SetUp T done)
    (hnodup : (done ++ l).Nodup) :
    ∃ t' T', l.foldlM sym t = some t' ∧ Represents t' T' ∧ SetUp T' (done ++ l) := by
  induction l generalizing t T done with
  | nil => exact ⟨t, T, rfl, h, by rwa [List.append_nil]⟩
  | cons name l ih =>
      have hname : name ∉ done := fun hmem =>
        (List.nodup_append.mp hnodup).2.2 name hmem name List.mem_cons_self rfl
      obtain ⟨t₁, T₁, hsym, h₁, hdone₁⟩ := sym_spec h hdone hname
      have happ : done ++ name :: l = (done ++ [name]) ++ l := by rw [List.append_assoc]; rfl
      rw [happ] at hnodup ⊢
      obtain ⟨t', T', hfold, h', hdone'⟩ := ih h₁ hdone₁ hnodup
      refine ⟨t', T', ?_, h', hdone'⟩
      rw [List.foldlM_cons, hsym]
      exact hfold

/-- `pdp_symbol_setup` ends without a failed assertion. -/
theorem setup_after : ∃ t T, pdpSymbolSetup = some t ∧ Represents t T ∧ After T [] [] := by
  have hempty : SetUp ⟨[], fun _ => [], fun _ => none⟩ [] :=
    ⟨⟨fun _ _ hp => absurd hp List.not_mem_nil, fun _ _ hp => absurd hp List.not_mem_nil,
      fun _ => List.nodup_nil⟩, rfl, (fun k s hk => by cases hk),
      fun _ _ hq => absurd hq List.not_mem_nil⟩
  obtain ⟨t, T, hsetup, h, hdone⟩ := foldlM_sym (l := SymbolTable.predefined)
    (t := ⟨[], fun _ => none, fun _ => none⟩) ⟨rfl, fun _ => .nil⟩ hempty (by decide)
  exact ⟨t, T, hsetup, h, hdone.proper, .nil, hdone.has, fun b q hq => Or.inl (hdone.others b q hq)⟩

/-! ## What every sequence of calls leaves -/

theorem mapM_visit {l : List Nat} (h : Represents t T) (hT : T.Proper) :
    l.mapM (fun i => t.visit (t.names.length + 1) (t.pdpSymhash i)) = some (l.map T.chains) := by
  induction l with
  | nil => rfl
  | cons i l ih =>
      rw [List.mapM_cons, visit_eq (h.chains i) (h.length_chain hT i), ih]
      rfl

theorem bucketOf_lt (s : Symbol) : bucketOf s < hashsize :=
  Nat.lt_succ_of_le Nat.and_le_right

/-- `pdp_symbol_apply_all` comes to each symbol in the chains, and to each of them once. -/
theorem applyAll_spec (h : Represents t T) (hT : T.Proper) :
    ∃ l, t.pdpSymbolApplyAll = some l ∧ l.Nodup ∧ ∀ p, p ∈ l ↔ ∃ b, p ∈ T.chains b := by
  refine ⟨((List.range hashsize).map T.chains).flatten, ?_, ?_, fun p => ?_⟩
  · unfold pdpSymbolApplyAll
    rw [mapM_visit h hT]
    rfl
  · refine List.nodup_flatten.mpr ⟨?_, ?_⟩
    · rintro l hl
      obtain ⟨b, _, rfl⟩ := List.mem_map.mp hl
      exact (h.chains b).nodup
    · refine List.pairwise_map.mpr (List.nodup_range.imp fun {b b'} hne => ?_)
      intro p hp hp'
      exact hne ((hT.bucket b p hp).symm.trans (hT.bucket b' p hp'))
  · rw [List.mem_flatten]
    constructor
    · rintro ⟨l, hl, hp⟩
      obtain ⟨b, _, rfl⟩ := List.mem_map.mp hl
      exact ⟨b, hp⟩
    · rintro ⟨b, hp⟩
      refine ⟨T.chains b, List.mem_map.mpr ⟨b, List.mem_range.mpr ?_, rfl⟩, hp⟩
      rw [← hT.bucket b p hp]
      exact bucketOf_lt _

theorem After.get {i : Nat} {c : SymbolCall} (h : After T calls returned)
    (hc : calls[i]? = some c) : ∃ p, returned[i]? = some p ∧ T.Has p c.name := by
  obtain ⟨hlength, hget⟩ := List.forall₂_iff_get.mp h.has
  obtain ⟨hi, hci⟩ := List.getElem?_eq_some_iff.mp hc
  have hi' : i < returned.length := hlength ▸ hi
  have hhas := hget i hi hi'
  rw [List.get_eq_getElem, List.get_eq_getElem, hci] at hhas
  exact ⟨_, List.getElem?_eq_getElem hi', hhas⟩

theorem After.mem {p : SymbolPtr} (h : After T calls returned) (hp : p ∈ returned) :
    ∃ s, T.Has p s := by
  obtain ⟨hlength, hget⟩ := List.forall₂_iff_get.mp h.has
  obtain ⟨i, hi, hpi⟩ := List.mem_iff_getElem.mp hp
  have hhas := hget i (hlength ▸ hi) hi
  rw [List.get_eq_getElem, List.get_eq_getElem, hpi] at hhas
  exact ⟨_, hhas⟩

/-- Interning is injective and stable, whatever is asked for in whatever order. -/
theorem gensym_stable (calls : List SymbolCall) : ∃ t₀, pdpSymbolSetup = some t₀ ∧
    ∃ returned t, run calls t₀ = some (returned, t) ∧ Stable t₀ calls returned t := by
  obtain ⟨t₀, T₀, hsetup, h₀, hafter₀⟩ := setup_after
  obtain ⟨returned, t, T, hrun, h, hkeeps, hafter⟩ := run_after calls h₀ hafter₀
  rw [List.nil_append, List.nil_append] at hafter
  refine ⟨t₀, hsetup, returned, t, hrun, ?_⟩
  constructor
  case injective =>
    intro i j c d p q hc hd hp hq
    obtain ⟨p', hp', hpc⟩ := hafter.get hc
    obtain rfl := Option.some.inj (hp'.symm.trans hp)
    obtain ⟨q', hq', hqd⟩ := hafter.get hd
    obtain rfl := Option.some.inj (hq'.symm.trans hq)
    constructor
    · rintro rfl
      exact hpc.name.symm.trans hqd.name
    · intro hname
      rw [← hname] at hqd
      exact hpc.unique hqd hafter.proper
  case predefined =>
    intro i k c hc hk
    obtain ⟨p, hp, hpc⟩ := hafter.get hc
    rw [hp, hpc.unique (hafter.predefined k c.name hk) hafter.proper]
  case named =>
    intro i c p hc hp
    obtain ⟨p', hp', hpc⟩ := hafter.get hc
    obtain rfl := Option.some.inj (hp'.symm.trans hp)
    rw [h.sName]
    exact hpc.name
  case names =>
    intro before after hsplit
    obtain ⟨returned₁, t₁, T₁, hrun₁, h₁, _, hafter₁⟩ := run_after before h₀ hafter₀
    obtain ⟨returned₂, t₂, T₂, hrun₂, h₂, hkeeps₂, _⟩ := run_after after h₁ hafter₁
    have hall := run_append before after t₀
    rw [← hsplit, hrun, hrun₁, Option.bind_some, hrun₂] at hall
    obtain ⟨hreturned, rfl⟩ := Prod.mk.inj (Option.some.inj hall)
    refine ⟨returned₁, t₁, hrun₁, ⟨returned₂, hreturned.symm⟩, fun p hp => ?_⟩
    rw [h₁.names] at hp
    rw [h₂.sName, h₁.sName]
    exact hkeeps₂.sName hp
  case chains =>
    intro b _
    refine ⟨T.chains b, h.chains b, ?_⟩
    rw [h.sName]
    exact hafter.proper.once b
  case visited =>
    obtain ⟨l, hall, hnodup, hmem⟩ := applyAll_spec h hafter.proper
    refine ⟨l, hall, hnodup, fun p => (hmem p).trans ⟨?_, ?_⟩⟩
    · rintro ⟨b, hp⟩
      exact hafter.others b p hp
    · rintro (hp | hp)
      · exact ⟨_, (hafter.predefined p _ (List.getElem?_eq_getElem hp)).mem⟩
      · obtain ⟨s, hs⟩ := hafter.mem hp
        exact ⟨_, hs.mem⟩

end SymbolHash

end PureDataPacket
