/-
# `PureDataPacket.List.References` — trees that hold packets

A packet atom of a tree holds a reference.  `pdp_tree_copy_ro` copies the tree and
then takes a reference for every packet atom of the copy; `pdp_tree_strip_packets`
gives them back.  The users of a packet are an `unsigned int`, so there is only
room for so many references.
-/
import PureDataPacket.Kernel.PoolSpec
import PureDataPacket.List.Trees

namespace PureDataPacket

open Pool

/-- `w_packet = p`: the lower half of the union. -/
def withPacket (w : Word) (p : Int) : Word := w / 2 ^ 32 * 2 ^ 32 + ofInt32 p

theorem withPacket_wInt (w : Word) : withPacket w (wInt w) = w := by
  have hword : ∀ n : Nat, n / 2 ^ 32 * 2 ^ 32 + ofInt32 (toInt32 n) = n := by
    intro n
    have h := ofInt32_eq (toInt32 n)
    have h' := toInt32_eq n
    split at h' <;> omega
  exact hword w

namespace Heap

/-- A function on the packet of an atom: what it returns is the packet of the atom
afterwards. -/
def atomPacket (f : Int → Pool → Int × Pool) (i : Nat) (s : Heap × Pool) :
    Except ListFault (Heap × Pool) := do
  let (i, a) ← s.1.atom (some i)
  if a.t = .packet then
    .ok (s.1.setAtom i { a with w := withPacket a.w (f (wInt a.w) s.2).1 }, (f (wInt a.w) s.2).2)
  else .ok s

/-- `_atom_packet_mark_unused`. -/
def atomPacketMarkUnused : Nat → Heap × Pool → Except ListFault (Heap × Pool) :=
  atomPacket fun p s => (-1, pdpPacketMarkUnused p s)

/-- `_atom_packet_copy_ro`. -/
def atomPacketCopyRo : Nat → Heap × Pool → Except ListFault (Heap × Pool) :=
  atomPacket pdpPacketCopyRo

/-- `pdp_tree_strip_packets`. -/
def pdpTreeStripPackets : Nat → Option Nat → Heap × Pool → Except ListFault (Heap × Pool) :=
  pdpTreeApply atomPacketMarkUnused

/-- `_pdp_tree_copy_ro_packets`. -/
def pdpTreeCopyRoPackets : Nat → Option Nat → Heap × Pool → Except ListFault (Heap × Pool) :=
  pdpTreeApply atomPacketCopyRo

/-- `pdp_tree_copy_ro`. -/
def pdpTreeCopyRo (n : Nat) (l : Option Nat) (s : Heap × Pool) :
    Except ListFault (Nat × Heap × Pool) := do
  let (l2, h) ← pdpTreeCopy n l s.1
  let s ← pdpTreeCopyRoPackets n (some l2) (h, s.2)
  .ok (l2, s)

end Heap

/-! ## The packets of a tree -/

section Packets

mutual

/-- The packets of a tree, as often as they occur in it. -/
def Node.packets : Node (WordType × Word) → List Int
  | .pure v => if v.1 = .packet then [wInt v.2] else []
  | .list nodes => allPackets nodes

def allPackets : List (Node (WordType × Word)) → List Int
  | [] => []
  | o :: nodes => o.packets ++ allPackets nodes

end

/-- What a function on packets makes of the value of an atom. -/
def packetValue (f : Int → Pool → Int × Pool) (v : WordType × Word) (s : Pool) :
    (WordType × Word) × Pool :=
  if v.1 = .packet then ((.packet, withPacket v.2 (f (wInt v.2) s).1), (f (wInt v.2) s).2)
  else (v, s)

variable {f : Int → Pool → Int × Pool}

theorem acts_atomPacket (f : Int → Pool → Int × Pool) :
    Acts (Heap.atomPacket f) (packetValue f) := by
  intro h A i v hR hv hkind s
  obtain ⟨x, hx, hval⟩ := hR.cell_of_val (hv ▸ Option.some_ne_none v)
  obtain rfl : v = (x.t, x.w) := Option.some.inj (hv.symm.trans hval)
  by_cases ht : x.t = .packet
  · have hset := hR.set_value hx (.packet, withPacket x.w (f (wInt x.w) s).1)
    simp only [packetValue, if_pos ht]
    refine ⟨by decide, h.setAtom i ⟨x.next, withPacket x.w (f (wInt x.w) s).1, .packet⟩, ?_, hset⟩
    simp only [Heap.atomPacket, atom_eq hx, ok_bind, if_pos ht]
    rw [ht]
  · simp only [packetValue, if_neg ht]
    refine ⟨hkind, h, ?_, ?_⟩
    · simp only [Heap.atomPacket, atom_eq hx, ok_bind, if_neg ht]
    · have hself : A.put i (x.t, x.w) = A := by
        unfold Lists.put
        rw [← hv, Function.update_eq_self]
      rwa [hself]

mutual

/-- The pool goes through the packets, one after the other. -/
theorem applied_packets (f : Int → Pool → Int × Pool) :
    ∀ (o : Owned (WordType × Word)) (s : Pool), (o.applied (packetValue f) s).2 =
      o.erase.packets.foldl (fun s p => (f p s).2) s
  | .pure a v, s => by
      by_cases ht : v.1 = .packet
      · simp only [Owned.applied, Owned.erase, Node.packets, packetValue, if_pos ht,
          List.foldl_cons, List.foldl_nil]
      · simp only [Owned.applied, Owned.erase, Node.packets, packetValue, if_neg ht, List.foldl_nil]
  | .list a l nodes, s => by
      rw [Owned.applied, Owned.erase, Node.packets]
      exact allApplied_packets f nodes s

theorem allApplied_packets (f : Int → Pool → Int × Pool) :
    ∀ (nodes : List (Owned (WordType × Word))) (s : Pool),
      (allApplied (packetValue f) nodes s).2 =
        (allPackets (eraseAll nodes)).foldl (fun s p => (f p s).2) s
  | [], s => rfl
  | o :: nodes, s => by
      rw [allApplied, eraseAll, allPackets, List.foldl_append, ← applied_packets f o s]
      exact allApplied_packets f nodes _

end

end Packets

/-! ## References -/

section References

/-- `pdp_packet_copy_ro` for one packet after the other. -/
def copyAll (ps : List Int) (s : Pool) : Pool := ps.foldl (fun s p => (pdpPacketCopyRo p s).2) s

/-- `pdp_packet_mark_unused` for one packet after the other. -/
def releaseAll (ps : List Int) (s : Pool) : Pool :=
  ps.foldl (fun s p => pdpPacketMarkUnused p s) s

/-- Every packet has as many users more as it occurs in `ps`. -/
structure Raised (s : Pool) (ps : List Int) (s' : Pool) : Prop where
  header : ∀ p, s'.pdpPacketHeader p =
    (s.pdpPacketHeader p).map fun x => { x with users := x.users + ps.count p }
  reusefifo : s'.reusefifo = s.reusefifo
  classList : s'.classList = s.classList

theorem Raised.refl (s : Pool) : Raised s [] s where
  header p := by
    cases s.pdpPacketHeader p with
    | none => rfl
    | some x => rfl
  reusefifo := rfl
  classList := rfl

theorem Raised.same {s s' : Pool} (h : Raised s [] s') : Same s s' where
  header p := by
    rw [h.header p]
    cases s.pdpPacketHeader p with
    | none => rfl
    | some x => rfl
  reusefifo := h.reusefifo
  classList := h.classList

theorem Raised.cons {s s₁ s' : Pool} {p : Int} {ps : List Int} (h : Raised s [p] s₁)
    (h' : Raised s₁ ps s') : Raised s (p :: ps) s' where
  header q := by
    rw [h'.header, h.header, Option.map_map]
    congr 1
    funext x
    have hcount : ([p] : List Int).count q + ps.count q = (p :: ps).count q := by
      rw [← List.count_append, List.singleton_append]
    simp only [Function.comp_apply, Nat.add_assoc, hcount]
  reusefifo := h'.reusefifo.trans h.reusefifo
  classList := h'.classList.trans h.classList

/-- A reference is taken where there is room for it. -/
theorem raised_copyRo {s : Pool} {p : Int} {x : Packet} (hx : s.pdpPacketHeader p = some x)
    (hroom : x.users + 1 < 2 ^ 32) : Raised s [p] (pdpPacketCopyRo p s).2 := by
  rw [pdpPacketCopyRo_eq hx, u32_eq_self hroom]
  have hput := puts_of_header hx (some { x with users := x.users + 1 })
  refine ⟨fun q => ?_, hput.reusefifo, hput.classList⟩
  rw [hput.header]
  by_cases hq : q = p
  · rw [if_pos hq, hq, hx, List.count_singleton_self]
    rfl
  · rw [if_neg hq, List.count_singleton, if_neg (by simpa using Ne.symm hq)]
    cases s.pdpPacketHeader q with
    | none => rfl
    | some x => rfl

/-- References are taken where there is room for all of them. -/
theorem raised_copyAll (ps : List Int) {s : Pool} (hlive : ∀ p ∈ ps, s.pdpPacketHeader p ≠ none)
    (hroom : ∀ p x, s.pdpPacketHeader p = some x → x.users + ps.count p < 2 ^ 32) :
    Raised s ps (copyAll ps s) := by
  induction ps generalizing s with
  | nil => exact .refl s
  | cons p ps ih =>
      obtain ⟨x, hx⟩ := Option.ne_none_iff_exists'.mp (hlive p List.mem_cons_self)
      have hone : x.users + 1 < 2 ^ 32 := by
        have hp := hroom p x hx
        rw [List.count_cons_self] at hp
        omega
      have hraised := raised_copyRo hx hone
      refine hraised.cons (ih (fun q hq => ?_) (fun q y hy => ?_))
      · rw [hraised.header]
        have hq := hlive q (List.mem_cons_of_mem _ hq)
        cases hh : s.pdpPacketHeader q with
        | none => exact absurd hh hq
        | some y => exact Option.some_ne_none _
      · rw [hraised.header] at hy
        obtain ⟨z, hz, rfl⟩ := Option.map_eq_some_iff.mp hy
        have hq := hroom q z hz
        have hcount : ([p] : List Int).count q + ps.count q = (p :: ps).count q := by
          rw [← List.count_append, List.singleton_append]
        show z.users + ([p] : List Int).count q + ps.count q < 2 ^ 32
        omega

/-- Of a packet that somebody else uses too, a reference is given back. -/
theorem raised_markUnused {s s' : Pool} {p : Int} {ps : List Int} (h : Raised s (p :: ps) s')
    {x : Packet} (hx : s.pdpPacketHeader p = some x) (hused : 0 < x.users) :
    Raised s ps (pdpPacketMarkUnused p s') := by
  have hx' := h.header p
  rw [hx, Option.map_some, List.count_cons_self] at hx'
  rcases pdpPacketMarkUnused_eq hx' with ⟨hrun, -⟩ | ⟨d, -, hle, -⟩
  · rw [hrun]
    have hput := puts_of_header hx' (some { x with users := x.users + (ps.count p + 1) - 1 })
    refine ⟨fun q => ?_, hput.reusefifo.trans h.reusefifo, hput.classList.trans h.classList⟩
    rw [hput.header]
    by_cases hq : q = p
    · rw [if_pos hq, hq, hx]
      rfl
    · rw [if_neg hq, h.header, List.count_cons_of_ne (Ne.symm hq)]
  · simp only at hle
    omega

theorem raised_releaseAll (ps : List Int) {s s' : Pool} (h : Raised s ps s')
    (hlive : ∀ p ∈ ps, ∃ x, s.pdpPacketHeader p = some x ∧ 0 < x.users) :
    Raised s [] (releaseAll ps s') := by
  induction ps generalizing s' with
  | nil => exact h
  | cons p ps ih =>
      obtain ⟨x, hx, hused⟩ := hlive p List.mem_cons_self
      exact ih (raised_markUnused h hx hused) fun q hq => hlive q (List.mem_cons_of_mem _ hq)

/-- The users of a packet are an `unsigned int`. -/
def UsersFit (s : Pool) : Prop := ∀ p x, s.pdpPacketHeader p = some x → x.users < 2 ^ 32

theorem usersFit_copyRo {s : Pool} (h : UsersFit s) (p : Int) :
    UsersFit (pdpPacketCopyRo p s).2 := by
  cases hx : s.pdpPacketHeader p with
  | none => rwa [pdpPacketCopyRo_none hx]
  | some x =>
      rw [pdpPacketCopyRo_eq hx]
      intro q y hy
      rw [(puts_of_header hx _).header] at hy
      split at hy
      · cases hy
        exact u32_lt _
      · exact h q y hy

theorem usersFit_copyAll (ps : List Int) {s : Pool} (h : UsersFit s) : UsersFit (copyAll ps s) := by
  induction ps generalizing s with
  | nil => exact h
  | cons p ps ih => exact ih (usersFit_copyRo h p)

theorem copyRo_live {s : Pool} {q : Int} (h : s.pdpPacketHeader q ≠ none) (p : Int) :
    (pdpPacketCopyRo p s).2.pdpPacketHeader q ≠ none := by
  cases hx : s.pdpPacketHeader p with
  | none => rwa [pdpPacketCopyRo_none hx]
  | some x =>
      rw [pdpPacketCopyRo_eq hx, (puts_of_header hx _).header]
      split
      · exact Option.some_ne_none _
      · exact h

theorem copyAll_live (ps : List Int) {s : Pool} {q : Int} (h : s.pdpPacketHeader q ≠ none) :
    (copyAll ps s).pdpPacketHeader q ≠ none := by
  induction ps generalizing s with
  | nil => exact h
  | cons p ps ih => exact ih (copyRo_live h p)

mutual

theorem applied_copyRo : ∀ (o : Owned (WordType × Word)) (s : Pool),
    (∀ p ∈ o.erase.packets, s.pdpPacketHeader p ≠ none) →
    (o.applied (packetValue pdpPacketCopyRo) s).1 = o
  | .pure a v, s, h => by
      by_cases ht : v.1 = .packet
      · rw [Owned.erase, Node.packets, if_pos ht] at h
        obtain ⟨x, hx⟩ := Option.ne_none_iff_exists'.mp (h _ (List.mem_singleton.mpr rfl))
        simp only [Owned.applied, packetValue, if_pos ht, pdpPacketCopyRo_eq hx, withPacket_wInt]
        rw [← ht]
      · simp only [Owned.applied, packetValue, if_neg ht]
  | .list a l nodes, s, h => by
      rw [Owned.applied, allApplied_copyRo nodes s h]

theorem allApplied_copyRo : ∀ (nodes : List (Owned (WordType × Word))) (s : Pool),
    (∀ p ∈ allPackets (eraseAll nodes), s.pdpPacketHeader p ≠ none) →
    (allApplied (packetValue pdpPacketCopyRo) nodes s).1 = nodes
  | [], s, _ => rfl
  | o :: nodes, s, h => by
      rw [eraseAll, allPackets] at h
      have ho := applied_copyRo o s fun p hp => h p (List.mem_append_left _ hp)
      have hnodes := allApplied_copyRo nodes (o.applied (packetValue pdpPacketCopyRo) s).2
        fun p hp => by
          rw [applied_packets]
          exact copyAll_live _ (h p (List.mem_append_right _ hp))
      rw [allApplied, ho, hnodes]

end

end References

/-! ## `pdp_tree_copy_ro`, and back -/

section CopyRo

variable {n l : Nat} {h : Heap} {A : Lists} {s : Pool} {nodes : List (Owned (WordType × Word))}

/-- `pdp_tree_copy_ro` makes a tree that says the same, of new cells, and takes a
reference for every packet in it. -/
theorem pdpTreeCopyRo_spec (hR : Rep h A) (hl : TreeAt A l nodes)
    (hn : depths (eraseAll nodes) < n)
    (hlive : ∀ p ∈ allPackets (eraseAll nodes), s.pdpPacketHeader p ≠ none) :
    ∃ l' h' B nodes', Heap.pdpTreeCopyRo n (some l) (h, s) =
        .ok (l', h', copyAll (allPackets (eraseAll nodes)) s) ∧ Rep h' B ∧ TreeAt B l' nodes' ∧
      eraseAll nodes' = eraseAll nodes ∧
      A.Grew B [] (allAtomIds nodes') (l' :: allListIds nodes') := by
  obtain ⟨l', h₁, C, nodes', hcopy, hR₁, hl', herase, hgrew⟩ :=
    pdpTreeCopy_spec hn hl hR (.refl A)
  obtain ⟨h', B, hrun, hR', hlie, hseq, hval⟩ :=
    pdpTreeApply_spec (acts_atomPacket pdpPacketCopyRo) (by rwa [herase]) s hR₁ hl'
      hgrew.atoms_nodup
  rw [allApplied_packets, herase] at hrun
  rw [allApplied_copyRo nodes' s (by rwa [herase])] at hlie
  refine ⟨l', h', B, nodes', ?_, hR', ⟨(congrFun hseq l').trans hl'.seq, hlie⟩, herase,
    ⟨hgrew.atoms_nodup, hgrew.lists_nodup, hgrew.atoms, hgrew.lists, fun i hi => ?_,
      fun k hk => ?_⟩⟩
  · have happly : Heap.pdpTreeCopyRoPackets n (some l') (h₁, s) =
        .ok (h', copyAll (allPackets (eraseAll nodes)) s) := hrun
    simp only [Heap.pdpTreeCopyRo, hcopy, ok_bind, happly]
  · rw [hval i hi, hgrew.val i hi]
  · rw [hseq, hgrew.seq k hk]

/-- Heaps that stand for the same lists but for cells that were given back. -/
theorem Lists.Grew.rep_free {B C : Lists} {h₂ h₃ : Heap} {as ls : List Nat} (hR : Rep h A)
    (hgrew : A.Grew B [] as ls) (hR₂ : Rep h₂ C) (hseq : C.seq = B.seq)
    (hval : ∀ i, i ∉ as → C.val i = B.val i) (hf : h₂.Frees h₃ as ls) : Rep h₃ A where
  headers k := by
    rw [hf.lists]
    by_cases hk : k ∈ ls
    · rw [if_pos hk, hgrew.lists k hk]
      rfl
    · rw [if_neg hk, hR₂.headers, hseq, hgrew.seq k hk]
  values i := by
    rw [hf.atoms]
    by_cases hi : i ∈ as
    · rw [if_pos hi, (hgrew.atoms i hi).resolve_left List.not_mem_nil]
      rfl
    · rw [if_neg hi, ← hR₂.values, hval i hi, hgrew.val i hi]
  linked k t hk := by
    have hkept := hgrew.kept (.refl A) (fun i hi => absurd hi List.not_mem_nil)
    have hk₂ : C.seq k = some t := (congrFun hseq k).trans (hkept.seq k t hk)
    refine linked_congr (fun i hi => ?_) (hR₂.linked k t hk₂)
    rw [hf.atoms, if_neg (hgrew.not_mem (hR.val_ne_none hk hi) List.not_mem_nil)]
  nodup := hR.nodup
  small := hR.small
  disjoint := hR.disjoint

/-- The tree is stripped of its packets and given back. -/
theorem strip_free {B : Lists} {h' : Heap} (s' : Pool) {l' : Nat}
    {nodes' : List (Owned (WordType × Word))} (hR : Rep h A) (hR' : Rep h' B)
    (hl' : TreeAt B l' nodes') (hn : depths (eraseAll nodes') < n)
    (hgrew : A.Grew B [] (allAtomIds nodes') (l' :: allListIds nodes')) :
    ∃ h₂ h₃, Heap.pdpTreeStripPackets n (some l') (h', s') =
        .ok (h₂, releaseAll (allPackets (eraseAll nodes')) s') ∧
      Heap.pdpTreeFree n (some l') h₂ = .ok h₃ ∧ Rep h₃ A := by
  obtain ⟨h₂, C, hrun, hR₂, hlie, hseq, hval⟩ :=
    pdpTreeApply_spec (acts_atomPacket fun p s => (-1, pdpPacketMarkUnused p s)) hn s' hR' hl'
      hgrew.atoms_nodup
  rw [allApplied_packets] at hrun
  obtain ⟨hcells, hatoms, hlists⟩ :=
    allApplied_ids (packetValue fun p s => (-1, pdpPacketMarkUnused p s)) nodes' s'
  have hl₂ : TreeAt C l' _ :=
    ⟨(congrFun hseq l').trans (by rw [hcells]; exact hl'.seq), hlie⟩
  obtain ⟨h₃, hfree, hf⟩ := pdpTreeFree_frees hR₂ (by rwa [allApplied_depths]) hl₂
    (by rw [hatoms]; exact hgrew.atoms_nodup) (by rw [hlists]; exact hgrew.lists_nodup)
    ⟨fun _ _ => rfl, fun _ _ => rfl⟩
  rw [hatoms, hlists] at hf
  exact ⟨h₂, h₃, hrun, hfree, hgrew.rep_free hR hR₂ hseq hval hf⟩

/-- Taking references for a tree, and giving them back: `pdp_tree_copy_ro` returns a
tree that says the same as the one at `l`, shares no cell with it and leaves it as it
is; every packet has as many users more as it occurs in the tree.  Stripping the copy
and freeing it leaves the lists, the users and the fifos that there were. -/
def CopiesReferences (n : Nat) (h : Heap) (A : Lists) (s : Pool) (l : Nat)
    (nodes : List (Owned (WordType × Word))) : Prop :=
  ∃ l' h' s' B nodes', Heap.pdpTreeCopyRo n (some l) (h, s) = .ok (l', h', s') ∧
    Rep h' B ∧ TreeAt B l nodes ∧ TreeAt B l' nodes' ∧ eraseAll nodes' = eraseAll nodes ∧
    (allAtomIds nodes').Disjoint (allAtomIds nodes) ∧
    (l' :: allListIds nodes').Disjoint (l :: allListIds nodes) ∧
    A.Grew B [] (allAtomIds nodes') (l' :: allListIds nodes') ∧
    Raised s (allPackets (eraseAll nodes)) s' ∧
    ∃ h₂ s₂ h₃, Heap.pdpTreeStripPackets n (some l') (h', s') = .ok (h₂, s₂) ∧ Same s s₂ ∧
      Heap.pdpTreeFree n (some l') h₂ = .ok h₃ ∧ Rep h₃ A

/-- There is room for a reference for every packet of the tree. -/
def HasRoom (s : Pool) (nodes : List (Owned (WordType × Word))) : Prop :=
  ∀ p x, s.pdpPacketHeader p = some x → x.users + (allPackets (eraseAll nodes)).count p < 2 ^ 32

/-- The packets of the tree are in use. -/
def PacketsLive (s : Pool) (nodes : List (Owned (WordType × Word))) : Prop :=
  ∀ p ∈ allPackets (eraseAll nodes), ∃ x, s.pdpPacketHeader p = some x ∧ 0 < x.users

theorem PacketsLive.header (hlive : PacketsLive s nodes) :
    ∀ p ∈ allPackets (eraseAll nodes), s.pdpPacketHeader p ≠ none := by
  intro p hp
  obtain ⟨x, hx, -⟩ := hlive p hp
  rw [hx]
  exact Option.some_ne_none x

theorem copiesReferences_of_room (hR : Rep h A) (hl : TreeAt A l nodes)
    (hn : depths (eraseAll nodes) < n) (hlive : PacketsLive s nodes) (hroom : HasRoom s nodes) :
    CopiesReferences n h A s l nodes := by
  obtain ⟨l', h', B, nodes', hrun, hR', hl', herase, hgrew⟩ :=
    pdpTreeCopyRo_spec hR hl hn hlive.header
  have hraised := raised_copyAll _ hlive.header hroom
  obtain ⟨h₂, h₃, hstrip, hfree, hR₃⟩ :=
    strip_free (copyAll (allPackets (eraseAll nodes)) s) hR hR' hl' (by rwa [herase]) hgrew
  rw [herase] at hstrip
  have hkept := hgrew.kept (.refl A) fun i hi => absurd hi List.not_mem_nil
  refine ⟨l', h', _, B, nodes', hrun, hR', ⟨hkept.seq l _ hl.seq, ?_⟩, hl', herase,
    fun i hi hi' => ?_, fun k hk hk' => ?_, hgrew, hraised, h₂, _, h₃, hstrip,
    (raised_releaseAll _ hraised hlive).same, hfree, hR₃⟩
  · exact allLie_keep nodes (fun i _ => hkept.val i) (fun k _ => hkept.seq k) hl.lie
  · exact hgrew.not_mem (allLie_val nodes hl.lie i hi') List.not_mem_nil hi
  · have hused : A.seq k ≠ none := by
      rcases List.mem_cons.mp hk' with rfl | hk'
      · rw [hl.seq]
        exact Option.some_ne_none _
      · exact allLie_seq nodes hl.lie k hk'
    exact hused (hgrew.lists k hk)

theorem room_of_copiesReferences (hR : Rep h A) (hl : TreeAt A l nodes)
    (hn : depths (eraseAll nodes) < n) (hlive : PacketsLive s nodes) (hfit : UsersFit s)
    (hcopies : CopiesReferences n h A s l nodes) : HasRoom s nodes := by
  obtain ⟨l', h', s', B, nodes', hrun, -, -, -, -, -, -, -, hraised, -⟩ := hcopies
  obtain ⟨l₁, h₁, B₁, nodes₁, hrun₁, -⟩ := pdpTreeCopyRo_spec hR hl hn hlive.header
  obtain ⟨rfl, rfl, rfl⟩ : l' = l₁ ∧ h' = h₁ ∧ s' = copyAll (allPackets (eraseAll nodes)) s := by
    simpa only [hrun, Except.ok.injEq, Prod.mk.injEq] using hrun₁
  intro p x hx
  have hp := hraised.header p
  rw [hx, Option.map_some] at hp
  exact usersFit_copyAll _ hfit p _ hp

/-- Trees of packets are copied as they should exactly when no counter of users comes to
its end. -/
theorem copiesReferences_iff (hR : Rep h A) (hl : TreeAt A l nodes)
    (hn : depths (eraseAll nodes) < n) (hlive : PacketsLive s nodes) (hfit : UsersFit s) :
    CopiesReferences n h A s l nodes ↔ HasRoom s nodes :=
  ⟨room_of_copiesReferences hR hl hn hlive hfit, copiesReferences_of_room hR hl hn hlive⟩

end CopyRo

/-! ## A packet that occurs twice -/

section Twice

/-- The tree `(p (p))` for the packet 0. -/
def twice : List (Owned (WordType × Word)) :=
  [.pure 2 (.packet, 0), .list 1 0 [.pure 0 (.packet, 0)]]

/-- The list 1 is the tree. -/
def twiceLists : Lists :=
  ((((Lists.put ⟨fun _ => none, fun _ => none⟩ 0 (.packet, 0)).set 0 [0]).put 1
    (.list, listWord 0)).put 2 (.packet, 0)).set 1 [2, 1]

def twiceHeap : Heap where
  atoms := ((Arena.empty.alloc ⟨none, 0, .packet⟩).alloc ⟨none, listWord 0, .list⟩).alloc
    ⟨some 1, 0, .packet⟩
  lists := (Arena.empty.alloc (headerOf [0])).alloc (headerOf [2, 1])

def onePacket (users : Nat) : Pool where
  pdpPool := [some { Packet.fresh 0 ⟨[], DataArea.empty_size_lt⟩ with users := users }]
  reusefifo := fun _ => []
  classList := []
  malloc := fun _ => none
  mallocs := 0
  size_pos := Nat.one_pos

theorem rep_twice : Rep twiceHeap twiceLists := by
  have hR₁ := rep_empty.alloc_atom none 0 .packet
  have hR₂ := hR₁.alloc_list (s := [0]) ⟨⟨_, rfl, rfl⟩, trivial⟩ (by decide) (by decide)
    (fun _ _ hl => by cases hl)
  have hR₃ := hR₂.alloc_atom none (listWord 0) .list
  have hR₄ := hR₃.alloc_atom (some 1) 0 .packet
  refine hR₄.alloc_list (s := [2, 1]) ⟨⟨_, rfl, rfl⟩, ⟨_, rfl, rfl⟩, trivial⟩ (by decide)
    (by decide) fun l s hl i hi => ?_
  have hs : Function.update (fun _ : Nat => none) 0 (some [0]) l = some s := hl
  rw [Function.update_apply] at hs
  split at hs
  · cases hs
    rw [List.mem_singleton.mp hi]
    decide
  · cases hs

theorem treeAt_twice : TreeAt twiceLists 1 twice :=
  ⟨rfl, ⟨rfl, by decide⟩, ⟨rfl, rfl, ⟨rfl, by decide⟩, trivial⟩, trivial⟩

theorem header_onePacket {users : Nat} {p : Int} {x : Packet}
    (hx : (onePacket users).pdpPacketHeader p = some x) : p = 0 ∧ x.users = users := by
  have hp : 0 ≤ p ∧ p < 1 := lt_of_header hx
  obtain rfl : p = 0 := by omega
  cases hx
  exact ⟨rfl, rfl⟩

theorem live_twice {users : Nat} (h : 0 < users) : PacketsLive (onePacket users) twice := by
  intro p hp
  have hpackets : allPackets (eraseAll twice) = [0, 0] := by decide
  rw [hpackets] at hp
  obtain rfl : p = 0 := by simpa using hp
  exact ⟨_, rfl, h⟩

theorem usersFit_onePacket {users : Nat} (h : users < 2 ^ 32) : UsersFit (onePacket users) :=
  fun _ _ hx => (header_onePacket hx).2 ▸ h

/-- A packet with one user gets two more. -/
theorem copiesReferences_twice :
    CopiesReferences 2 twiceHeap twiceLists (onePacket 1) 1 twice := by
  refine (copiesReferences_iff rep_twice treeAt_twice (by decide) (live_twice (by decide))
    (usersFit_onePacket (by decide))).mpr fun p x hx => ?_
  obtain ⟨rfl, hu⟩ := header_onePacket hx
  rw [hu]
  decide

/-- A packet with as many users as can be counted gets none. -/
theorem not_copiesReferences_full :
    ¬ CopiesReferences 2 twiceHeap twiceLists (onePacket (2 ^ 32 - 1)) 1 twice := by
  intro h
  have hroom := room_of_copiesReferences rep_twice treeAt_twice (by decide) (live_twice (by decide))
    (usersFit_onePacket (by decide)) h
  exact absurd (hroom 0 _ rfl) (by decide)

end Twice

end PureDataPacket
