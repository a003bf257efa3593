/-
# `PureDataPacket.Kernel.FastAlloc` — atoms from a freelist in the free memory

`pdp_fastalloc_new_atom` takes an atom from a list; if there is none, `pdp_alloc` gives a block,
which is cut into atoms.  The links of the list are stored in the free atoms themselves: what is in
an atom belongs to the allocator while it is free and to the caller while it is not.

| | |
| :-- | :-- |
| `Kept` | the invariant: free atoms and atoms in use lie apart in the blocks |
| `SoundAlloc` | what is owed in every state |
| `fastalloc_sound` | in every run in which only atoms in use are given back |
-/
import PureDataPacket.Lib.Chain
import PureDataPacket.Lib.CInt
import PureDataPacket.Lib.Memory
import Mathlib.Data.List.Perm.Basic

namespace PureDataPacket

/-- `sizeof(t_fastalloc)`. -/
def sizeofFastalloc : Nat := 8

/-- `t_pdp_fastalloc`, with the memory and the blocks that `pdp_alloc` has returned. -/
structure Fastalloc where
  freelist : Nat
  atomSize : Nat
  blockElements : Nat
  mem : Memory
  blocks : List Nat

/-- Why a call does not return. -/
inductive FastallocStop where
  /-- `pdp_alloc` has no memory -/
  | noMemory
  /-- the freelist is not empty when it is refilled -/
  | assertion
  /-- the freelist is refilled again and again -/
  | endless
deriving DecidableEq

/-- What `malloc` returns for a size, after these blocks. -/
abbrev Malloc : Type := List Nat → Nat → Option Nat

namespace Fastalloc

/-- `atom->next`. -/
def next (x : Fastalloc) (atom : Nat) : Nat := x.mem.load sizeofFastalloc atom

/-- `atom->next = p`. -/
def setNext (x : Fastalloc) (atom p : Nat) : Fastalloc :=
  { x with mem := x.mem.store sizeofFastalloc atom p }

/-- The loop of `_pdp_fastalloc_refill_freelist` with `n` rounds to go: where `atom` ends, and the
object. -/
def linkAtoms : Nat → Nat → Fastalloc → Nat × Fastalloc
  | 0, atom, x => (atom, x)
  | n + 1, atom, x => linkAtoms n (atom + x.atomSize) (x.setNext atom (atom + x.atomSize))

/-- The block is the freelist, and its atoms are linked. -/
def linkBlock (rounds block : Nat) (x : Fastalloc) : Fastalloc :=
  let (atom, x) := linkAtoms rounds block { x with freelist := block, blocks := block :: x.blocks }
  x.setNext atom 0

/-- `_pdp_fastalloc_refill_freelist`. -/
def refillFreelist (malloc : Malloc) (x : Fastalloc) : Except FastallocStop Fastalloc :=
  if x.freelist ≠ 0 then .error .assertion
  else
    match malloc x.blocks (u32 (x.blockElements * x.atomSize)) with
    | none => .error .noMemory
    | some block => .ok (x.linkBlock (u32 (x.blockElements + (2 ^ 32 - 1))) block)

/-- The loop of `pdp_fastalloc_new_atom`, for at most `n` tests. -/
def refillLoop (malloc : Malloc) : Nat → Fastalloc → Except FastallocStop Fastalloc
  | 0, _ => .error .endless
  | n + 1, x =>
      if x.freelist ≠ 0 then .ok x
      else
        match x.refillFreelist malloc with
        | .error e => .error e
        | .ok x => refillLoop malloc n x

/-- `pdp_fastalloc_new_atom`. -/
def newAtom (malloc : Malloc) (x : Fastalloc) : Except FastallocStop (Nat × Fastalloc) :=
  match x.refillLoop malloc 2 with
  | .error e => .error e
  | .ok x =>
      let atom := x.freelist
      let x := { x with freelist := x.next atom }
      .ok (atom, x.setNext atom 0)

/-- `pdp_fastalloc_save_atom`. -/
def saveAtom (x : Fastalloc) (atom : Nat) : Fastalloc :=
  { x.setNext atom x.freelist with freelist := atom }

/-- `pdp_fastalloc_new`, with `block_elements` as a parameter. -/
def new (size blockElements : Nat) (mem : Memory) : Fastalloc where
  freelist := 0
  atomSize := if size < sizeofFastalloc then sizeofFastalloc else size
  blockElements := blockElements
  mem := mem
  blocks := []

/-! ## Calls -/

/-- What its users do: ask for an atom, give one back, write a byte of one. -/
inductive Call where
  | newAtom
  | saveAtom (atom : Nat)
  | write (a : Nat) (v : UInt8)

/-- The object, and the atoms in use. -/
structure Usage where
  alloc : Fastalloc
  inUse : List Nat

/-- Only atoms in use are given back, and written to. -/
def Usage.Allows (s : Usage) : Call → Prop
  | .newAtom => True
  | .saveAtom atom => atom ∈ s.inUse
  | .write a _ => ∃ atom ∈ s.inUse, atom ≤ a ∧ a < atom + s.alloc.atomSize

def Usage.call (malloc : Malloc) (c : Call) (s : Usage) : Except FastallocStop Usage :=
  match c with
  | .newAtom =>
      match s.alloc.newAtom malloc with
      | .error e => .error e
      | .ok (atom, x) => .ok ⟨x, atom :: s.inUse⟩
  | .saveAtom atom => .ok ⟨s.alloc.saveAtom atom, s.inUse.erase atom⟩
  | .write a v => .ok ⟨{ s.alloc with mem := s.alloc.mem.poke a v }, s.inUse⟩

def Usage.run (malloc : Malloc) : List Call → Usage → Except FastallocStop Usage
  | [], s => .ok s
  | c :: calls, s =>
      match s.call malloc c with
      | .error e => .error e
      | .ok s => Usage.run malloc calls s

/-- Each call is allowed in the state in which it is made. -/
def Usage.AllowsAll (malloc : Malloc) : List Call → Usage → Prop
  | [], _ => True
  | c :: calls, s => s.Allows c ∧ ∀ s', s.call malloc c = .ok s' → Usage.AllowsAll malloc calls s'

/-! ## What is owed -/

/-- `malloc` returns memory that is not in another block. -/
def MallocSound (malloc : Malloc) (size : Nat) : Prop :=
  ∀ blocks block, malloc blocks size = some block →
    0 < block ∧ block + size ≤ 2 ^ 64 ∧ ∀ b ∈ blocks, block + size ≤ b ∨ b + size ≤ block

/-- Two ranges of this size have no byte in common. -/
def Apart (size a b : Nat) : Prop := a + size ≤ b ∨ b + size ≤ a

/-- This is an atom of one of the blocks. -/
def InBlock (x : Fastalloc) (atom : Nat) : Prop :=
  ∃ block ∈ x.blocks, ∃ k < x.blockElements, atom = block + k * x.atomSize

def link (p : Nat) : Option Nat := if p = 0 then none else some p

/-- These are the atoms of the freelist. -/
def FreeList (x : Fastalloc) (l : List Nat) : Prop :=
  Chained (fun atom => link (x.next atom)) (link x.freelist) l

/-- The freelist ends, its atoms are atoms of the blocks, and no two of these and of the atoms in
use have a byte in common; and so it is with the next atom, if there is memory for it. -/
structure Usage.SoundAlloc (malloc : Malloc) (s : Usage) : Prop where
  free : ∃ l, s.alloc.FreeList l ∧ l.Nodup ∧ (∀ a ∈ l, s.alloc.InBlock a) ∧
    l.Pairwise (Apart s.alloc.atomSize) ∧
    ∀ a ∈ l, ∀ b ∈ s.inUse, Apart s.alloc.atomSize a b
  next : (∃ atom x l, s.alloc.newAtom malloc = .ok (atom, x) ∧ x.InBlock atom ∧ x.FreeList l ∧
      (∀ a ∈ l, Apart x.atomSize atom a) ∧ ∀ b ∈ s.inUse, Apart x.atomSize atom b) ∨
    s.alloc.newAtom malloc = .error .noMemory ∧
      malloc s.alloc.blocks (s.alloc.blockElements * s.alloc.atomSize) = none

/-! ## A block -/

section Block

variable {x x' : Fastalloc} {a b atom p size n k : Nat} {l : List Nat}

theorem Apart.symm (h : Apart size a b) : Apart size b a := Or.symm h

/-- `n` atoms, from this one on. -/
def atomsFrom (size : Nat) : Nat → Nat → List Nat
  | 0, _ => []
  | n + 1, a => a :: atomsFrom size n (a + size)

theorem mem_atomsFrom : b ∈ atomsFrom size n a ↔ ∃ k < n, b = a + k * size := by
  induction n generalizing a with
  | zero =>
      exact ⟨fun h => absurd h List.not_mem_nil, fun ⟨k, hk, _⟩ => absurd hk (Nat.not_lt_zero k)⟩
  | succ n ih =>
      rw [atomsFrom, List.mem_cons, ih]
      constructor
      · rintro (rfl | ⟨k, hk, rfl⟩)
        · exact ⟨0, Nat.succ_pos n, by omega⟩
        · refine ⟨k + 1, Nat.succ_lt_succ hk, ?_⟩
          rw [Nat.succ_mul]
          omega
      · rintro ⟨k, hk, rfl⟩
        cases k with
        | zero => exact Or.inl (by omega)
        | succ k =>
            refine Or.inr ⟨k, Nat.lt_of_succ_lt_succ hk, ?_⟩
            rw [Nat.succ_mul]
            omega

theorem pairwise_atomsFrom (size n a : Nat) : (atomsFrom size n a).Pairwise (Apart size) := by
  induction n generalizing a with
  | zero => exact .nil
  | succ n ih =>
      refine List.pairwise_cons.mpr ⟨fun b hb => Or.inl ?_, ih (a + size)⟩
      obtain ⟨k, _, rfl⟩ := mem_atomsFrom.mp hb
      omega

theorem next_setNext_self (x : Fastalloc) (atom : Nat) (hp : p < 2 ^ 64) :
    (x.setNext atom p).next atom = p :=
  Memory.load_store_self x.mem atom (show p < 256 ^ 8 by omega)

theorem next_setNext_other (hsize : sizeofFastalloc ≤ size) (h : Apart size a atom) :
    (x.setNext atom p).next a = x.next a := by
  refine Memory.load_store_other ?_
  unfold Apart at h
  omega

theorem next_freelist (x : Fastalloc) (p a : Nat) :
    ({ x with freelist := p } : Fastalloc).next a = x.next a := rfl

/-- The loop links each atom to the one after it, and stops at the last one. -/
theorem linkAtoms_spec (hatoms : x.atomSize = size) (hsize : sizeofFastalloc ≤ size)
    (hend : atom + n * size < 2 ^ 64) :
    ∃ mem, linkAtoms n atom x = (atom + n * size, { x with mem := mem }) ∧
      (∀ k < n, ({ x with mem := mem } : Fastalloc).next (atom + k * size) =
        atom + (k + 1) * size) ∧
      ∀ a, (a + sizeofFastalloc ≤ atom ∨ atom + n * size ≤ a) →
        ({ x with mem := mem } : Fastalloc).next a = x.next a := by
  subst hatoms
  induction n generalizing atom x with
  | zero =>
      refine ⟨x.mem, ?_, fun k hk => absurd hk (Nat.not_lt_zero k), fun _ _ => rfl⟩
      rw [Nat.zero_mul, Nat.add_zero]
      rfl
  | succ n ih =>
      rw [Nat.succ_mul] at hend
      have hshift : ∀ k, atom + (k + 1) * x.atomSize = atom + x.atomSize + k * x.atomSize :=
        fun k => by rw [Nat.succ_mul]; omega
      have hsize' : sizeofFastalloc ≤ (x.setNext atom (atom + x.atomSize)).atomSize := hsize
      have hend' : atom + x.atomSize + n * (x.setNext atom (atom + x.atomSize)).atomSize <
          2 ^ 64 := by
        show atom + x.atomSize + n * x.atomSize < _
        omega
      obtain ⟨mem, hlink, hnext, hother⟩ := ih hsize' hend'
      refine ⟨mem, ?_, fun k hk => ?_, fun a ha => ?_⟩
      · rw [hshift n]
        exact hlink
      · cases k with
        | zero =>
            have hfirst := hother atom (Or.inl (Nat.add_le_add_left hsize atom))
            rw [next_setNext_self x atom (by omega)] at hfirst
            rw [Nat.zero_mul, Nat.add_zero, Nat.zero_add, Nat.one_mul]
            exact hfirst
        | succ k =>
            rw [hshift k, hshift (k + 1)]
            exact hnext k (Nat.lt_of_succ_lt_succ hk)
      · rw [Nat.succ_mul] at ha
        refine (hother a ?_).trans (next_setNext_other (Nat.le_refl _) ?_)
        · show a + sizeofFastalloc ≤ atom + x.atomSize ∨ atom + x.atomSize + n * x.atomSize ≤ a
          omega
        · unfold Apart
          omega

theorem chained_atomsFrom {f : Nat → Nat} (hsize : 0 < size) (ha : 0 < a)
    (hnext : ∀ k < n, f (a + k * size) = a + (k + 1) * size) (hlast : f (a + n * size) = 0) :
    Chained (fun atom => link (f atom)) (link a) (atomsFrom size (n + 1) a) := by
  induction n generalizing a with
  | zero =>
      rw [Nat.zero_mul, Nat.add_zero] at hlast
      unfold link
      rw [if_neg (by omega)]
      refine .cons ?_
      rw [hlast]
      exact .nil
  | succ n ih =>
      have hshift : ∀ k, a + (k + 1) * size = a + size + k * size :=
        fun k => by rw [Nat.succ_mul]; omega
      have hfirst := hnext 0 (Nat.succ_pos n)
      rw [Nat.zero_mul, Nat.add_zero, Nat.zero_add, Nat.one_mul] at hfirst
      rw [link, if_neg (by omega)]
      refine .cons ?_
      rw [hfirst]
      refine ih (by omega) (fun k hk => ?_) ?_
      · rw [← hshift, ← hshift]
        exact hnext (k + 1) (Nat.succ_lt_succ hk)
      · rw [← hshift]
        exact hlast

end Block

/-! ## The invariant -/

section Invariant

variable {malloc : Malloc} {x x' : Fastalloc} {a atom p : Nat} {l inUse : List Nat}

/-- Sizes for which a block has a size that is an `int`. -/
structure SizesFit (size elements : Nat) : Prop where
  pointer : sizeofFastalloc ≤ size
  some : 1 ≤ elements
  fits : elements * size < 2 ^ 31

/-- Blocks of this size, none of them null. -/
def BlocksFit (size : Nat) (blocks : List Nat) : Prop :=
  ∀ b ∈ blocks, 0 < b ∧ b + size ≤ 2 ^ 64

/-- The freelist is `l`; its atoms and those in use are atoms of the blocks, and lie apart. -/
structure Kept (x : Fastalloc) (l inUse : List Nat) : Prop where
  sizes : SizesFit x.atomSize x.blockElements
  chain : x.FreeList l
  apart : (l ++ inUse).Pairwise (Apart x.atomSize)
  inBlock : ∀ a ∈ l ++ inUse, x.InBlock a
  bounds : BlocksFit (x.blockElements * x.atomSize) x.blocks

theorem link_of_pos (h : 0 < p) : link p = some p := if_neg (Nat.ne_of_gt h)

theorem InBlock.inside (h : x.InBlock a) : ∃ b ∈ x.blocks, b ≤ a ∧
    a + x.atomSize ≤ b + x.blockElements * x.atomSize := by
  obtain ⟨b, hb, k, hk, rfl⟩ := h
  have hle := Nat.mul_le_mul_right x.atomSize (Nat.succ_le_of_lt hk)
  rw [Nat.succ_mul] at hle
  exact ⟨b, hb, Nat.le_add_right _ _, by omega⟩

theorem Kept.bounds_atom (h : Kept x l inUse) (ha : x.InBlock a) : 0 < a ∧ a < 2 ^ 64 := by
  obtain ⟨b, hb, hle, hend⟩ := ha.inside
  obtain ⟨hpos, hmax⟩ := h.bounds b hb
  have hsize := h.sizes.pointer
  unfold sizeofFastalloc at hsize
  omega

/-- The first atom of the freelist is where the list points to. -/
theorem Kept.freelist_cons (h : Kept x (a :: l) inUse) : x.freelist = a := by
  have hhead := h.chain.head
  unfold link at hhead
  split at hhead
  · cases hhead
  · exact Option.some.inj hhead

theorem Kept.freelist_nil (h : Kept x [] inUse) : x.freelist = 0 := by
  have hhead := h.chain.head
  unfold link at hhead
  split at hhead
  · next hzero => exact hzero
  · cases hhead

theorem atomSize_new (size elements : Nat) (mem : Memory) :
    (new size elements mem).atomSize = max size sizeofFastalloc := by
  show (if size < sizeofFastalloc then sizeofFastalloc else size) = _
  split
  · omega
  · omega

theorem kept_new {size elements : Nat} (mem : Memory) (helements : 1 ≤ elements)
    (hfits : elements * max size sizeofFastalloc < 2 ^ 31) :
    Kept (new size elements mem) [] [] := by
  have hsize := atomSize_new size elements mem
  refine ⟨⟨?_, helements, ?_⟩, .nil, .nil, fun _ ha => absurd ha List.not_mem_nil,
    fun _ hb => absurd hb List.not_mem_nil⟩
  · rw [hsize]
    exact Nat.le_max_right _ _
  · rw [hsize]
    exact hfits

/-- The atoms of a block of its own, linked, and those that have been in use. -/
theorem Kept.block (h : Kept x [] inUse) {block n : Nat} (hn : x.blockElements = n + 1)
    (hpos : 0 < block) (hmax : block + x.blockElements * x.atomSize ≤ 2 ^ 64)
    (hnew : ∀ b ∈ x.blocks, Apart (x.blockElements * x.atomSize) block b)
    (hatoms : x'.atomSize = x.atomSize) (helements : x'.blockElements = x.blockElements)
    (hblocks : x'.blocks = block :: x.blocks)
    (hchain : x'.FreeList (atomsFrom x.atomSize (n + 1) block)) :
    Kept x' (atomsFrom x.atomSize (n + 1) block) inUse := by
  have hmine : ∀ a ∈ atomsFrom x.atomSize (n + 1) block, x'.InBlock a := by
    intro a ha
    obtain ⟨k, hk, rfl⟩ := mem_atomsFrom.mp ha
    refine ⟨block, ?_, k, ?_, ?_⟩
    · rw [hblocks]
      exact List.mem_cons_self
    · rw [helements, hn]
      exact hk
    · rw [hatoms]
  have hold : ∀ a ∈ inUse, x.InBlock a := fun a ha => h.inBlock a ha
  refine ⟨?_, hchain, ?_, fun a ha => ?_, ?_⟩
  · rw [helements, hatoms]
    exact h.sizes
  · rw [hatoms]
    refine List.pairwise_append.mpr ⟨pairwise_atomsFrom _ _ _, h.apart, fun a ha b hb => ?_⟩
    -- An atom of another block.
    obtain ⟨c, hc, hle, hend⟩ := (hmine a ha).inside
    obtain ⟨k, hk, rfl⟩ := mem_atomsFrom.mp ha
    obtain ⟨d, hd, hle', hend'⟩ := (hold b hb).inside
    have hmul := Nat.mul_le_mul_right x.atomSize (Nat.succ_le_of_lt hk)
    rw [← hn, Nat.succ_mul] at hmul
    have hapart := hnew d hd
    unfold Apart at hapart ⊢
    omega
  · rcases List.mem_append.mp ha with ha | ha
    · exact hmine a ha
    · obtain ⟨b, hb, k, hk, heq⟩ := hold a ha
      refine ⟨b, ?_, k, ?_, ?_⟩
      · rw [hblocks]
        exact List.mem_cons_of_mem block hb
      · rw [helements]
        exact hk
      · rw [hatoms]
        exact heq
  · rw [helements, hatoms, hblocks]
    intro b hb
    rcases List.mem_cons.mp hb with rfl | hb
    · exact ⟨hpos, hmax⟩
    · exact h.bounds b hb

theorem Kept.refill (h : Kept x [] inUse)
    (hmalloc : MallocSound malloc (x.blockElements * x.atomSize)) :
    (∃ x' a l, x.refillFreelist malloc = .ok x' ∧ Kept x' (a :: l) inUse ∧
        x'.blockElements * x'.atomSize = x.blockElements * x.atomSize) ∨
      x.refillFreelist malloc = .error .noMemory ∧
        malloc x.blocks (x.blockElements * x.atomSize) = none := by
  have hzero := h.freelist_nil
  have hsize := h.sizes.pointer
  have helements := h.sizes.some
  have hfits := h.sizes.fits
  unfold sizeofFastalloc at hsize
  have hbytes : u32 (x.blockElements * x.atomSize) = x.blockElements * x.atomSize :=
    u32_eq_self (by omega)
  have hle : x.blockElements ≤ x.blockElements * x.atomSize :=
    Nat.le_mul_of_pos_right _ (by omega)
  obtain ⟨n, hn⟩ : ∃ n, x.blockElements = n + 1 := ⟨x.blockElements - 1, by omega⟩
  have hrounds : u32 (x.blockElements + (2 ^ 32 - 1)) = n := by
    unfold u32
    omega
  have hend : x.blockElements * x.atomSize = n * x.atomSize + x.atomSize := by
    rw [hn, Nat.succ_mul]
  cases hblock : malloc x.blocks (x.blockElements * x.atomSize) with
  | none =>
      refine Or.inr ⟨?_, rfl⟩
      unfold refillFreelist
      rw [if_neg (not_not.mpr hzero), hbytes, hblock]
  | some block =>
      obtain ⟨hpos, hmax, hapart⟩ := hmalloc _ _ hblock
      obtain ⟨mem, hlink, hnext, _⟩ := @linkAtoms_spec
        { x with freelist := block, blocks := block :: x.blocks } block x.atomSize n rfl
        h.sizes.pointer (by omega)
      let linked : Fastalloc :=
        { x with freelist := block, blocks := block :: x.blocks, mem := mem }
      refine Or.inl ⟨linked.setNext (block + n * x.atomSize) 0, block,
        atomsFrom x.atomSize n (block + x.atomSize), ?_,
        h.block hn hpos hmax hapart rfl rfl rfl ?_, rfl⟩
      · have hlinked : x.linkBlock n block = linked.setNext (block + n * x.atomSize) 0 := by
          unfold linkBlock
          rw [hlink]
        unfold refillFreelist
        rw [if_neg (not_not.mpr hzero), hbytes, hrounds, hblock, ← hlinked]
      · refine chained_atomsFrom (Nat.lt_of_lt_of_le (by decide) hsize) hpos (fun k hk => ?_) ?_
        · refine (next_setNext_other h.sizes.pointer (Or.inl ?_)).trans (hnext k hk)
          have hmul := Nat.mul_le_mul_right x.atomSize (Nat.succ_le_of_lt hk)
          rw [Nat.succ_mul] at hmul
          show block + k * x.atomSize + x.atomSize ≤ block + n * x.atomSize
          omega
        · have hnull : 0 < 2 ^ 64 := Nat.two_pow_pos 64
          exact next_setNext_self linked (block + n * x.atomSize) hnull

theorem blockSize_take (x : Fastalloc) (p atom : Nat) :
    (setNext { x with freelist := p } atom 0).blockElements *
      (setNext { x with freelist := p } atom 0).atomSize = x.blockElements * x.atomSize := by
  have helements : (setNext { x with freelist := p } atom 0).blockElements = x.blockElements := rfl
  have hsize : (setNext { x with freelist := p } atom 0).atomSize = x.atomSize := rfl
  rw [helements, hsize]

theorem Kept.take (h : Kept x (atom :: l) inUse) (hp : x.next atom = p) :
    Kept (setNext { x with freelist := p } atom 0) l (atom :: inUse) := by
  have hpairs := List.pairwise_cons.mp h.apart
  have hchain := h.chain.tail
  rw [hp] at hchain
  refine ⟨h.sizes, ?_, ?_, fun a ha => ?_, h.bounds⟩
  · refine hchain.congr fun c hc => ?_
    have hapart := hpairs.1 c (List.mem_append_left _ hc)
    have hread : (setNext { x with freelist := p } atom 0).next c = x.next c :=
      (next_setNext_other h.sizes.pointer hapart.symm).trans (next_freelist x p c)
    exact congrArg link hread
  · have hperm : (atom :: l ++ inUse).Perm (l ++ atom :: inUse) := List.perm_middle.symm
    exact (hperm.pairwise_iff fun h => h.symm).mp h.apart
  · refine h.inBlock a ?_
    exact List.perm_middle.mem_iff.mp ha

theorem Kept.save (h : Kept x l inUse) (hatom : atom ∈ inUse) :
    Kept (x.saveAtom atom) (atom :: l) (inUse.erase atom) := by
  have hperm : (l ++ inUse).Perm (atom :: l ++ inUse.erase atom) :=
    ((List.perm_cons_erase hatom).append_left l).trans List.perm_middle
  have hpairs := (hperm.pairwise_iff fun h => h.symm).mp h.apart
  have hbounds := h.bounds_atom (h.inBlock atom (List.mem_append_right l hatom))
  have hfreelist : x.freelist < 2 ^ 64 := by
    cases l with
    | nil =>
        rw [h.freelist_nil]
        decide
    | cons a l =>
        rw [h.freelist_cons]
        exact (h.bounds_atom (h.inBlock a List.mem_cons_self)).2
  refine ⟨h.sizes, ?_, hpairs, fun a ha => ?_, h.bounds⟩
  · show Chained _ (link atom) (atom :: l)
    rw [link_of_pos hbounds.1]
    refine .cons ?_
    have hnext : (x.saveAtom atom).next atom = x.freelist := next_setNext_self x atom hfreelist
    rw [hnext]
    refine h.chain.congr fun c hc => ?_
    have hapart := (List.pairwise_cons.mp hpairs).1 c (List.mem_append_left _ hc)
    exact congrArg link (next_setNext_other h.sizes.pointer hapart.symm)
  · exact h.inBlock a (hperm.mem_iff.mpr ha)

theorem Kept.write (h : Kept x l inUse) (hatom : atom ∈ inUse) (v : UInt8)
    (hin : atom ≤ a ∧ a < atom + x.atomSize) :
    Kept { x with mem := x.mem.poke a v } l inUse := by
  refine ⟨h.sizes, ?_, h.apart, h.inBlock, h.bounds⟩
  refine h.chain.congr fun c hc => ?_
  have hapart := (List.pairwise_append.mp h.apart).2.2 c hc atom hatom
  have hsize := h.sizes.pointer
  have hread : ({ x with mem := x.mem.poke a v } : Fastalloc).next c = x.next c := by
    refine Memory.load_poke_other ?_
    unfold Apart at hapart
    omega
  exact congrArg link hread

/-- `pdp_fastalloc_new_atom` returns, with an atom or without memory. -/
theorem Kept.newAtom (h : Kept x l inUse)
    (hmalloc : MallocSound malloc (x.blockElements * x.atomSize)) :
    (∃ atom x' l', x.newAtom malloc = .ok (atom, x') ∧ Kept x' l' (atom :: inUse) ∧
        x'.blockElements * x'.atomSize = x.blockElements * x.atomSize) ∨
      x.newAtom malloc = .error .noMemory ∧
        malloc x.blocks (x.blockElements * x.atomSize) = none := by
  have hready : ∀ {n x a l}, Kept x (a :: l) inUse → refillLoop malloc (n + 1) x = .ok x :=
    fun {n x a l} h => by
      have hpos := (h.bounds_atom (h.inBlock a List.mem_cons_self)).1
      rw [← h.freelist_cons] at hpos
      exact if_pos (Nat.ne_of_gt hpos)
  cases l with
  | cons a l =>
      refine Or.inl ⟨a, _, l, ?_, h.take rfl, blockSize_take x _ a⟩
      unfold Fastalloc.newAtom
      rw [hready h]
      dsimp only
      rw [h.freelist_cons]
  | nil =>
      have hempty : ¬x.freelist ≠ 0 := not_not.mpr h.freelist_nil
      rcases h.refill hmalloc with ⟨x', a, l, hrefill, h', hsize⟩ | ⟨hrefill, hnone⟩
      · refine Or.inl ⟨a, _, l, ?_, h'.take rfl, (blockSize_take x' _ a).trans hsize⟩
        unfold Fastalloc.newAtom refillLoop
        rw [if_neg hempty, hrefill]
        dsimp only
        rw [hready h']
        dsimp only
        rw [h'.freelist_cons]
      · refine Or.inr ⟨?_, hnone⟩
        unfold Fastalloc.newAtom refillLoop
        rw [if_neg hempty, hrefill]

end Invariant

/-! ## Runs -/

section Runs

variable {malloc : Malloc} {s s' : Usage} {size : Nat} {l : List Nat} {c : Call}

/-- The invariant, and the size of the blocks. -/
structure Steady (size : Nat) (s : Usage) (l : List Nat) : Prop where
  kept : Kept s.alloc l s.inUse
  size : s.alloc.blockElements * s.alloc.atomSize = size

theorem Steady.sound (h : Steady size s l) (hmalloc : MallocSound malloc size) :
    s.SoundAlloc malloc := by
  have hpairs := List.pairwise_append.mp h.kept.apart
  refine ⟨⟨l, h.kept.chain, h.kept.chain.nodup,
    fun a ha => h.kept.inBlock a (List.mem_append_left _ ha), hpairs.1, hpairs.2.2⟩, ?_⟩
  rcases h.kept.newAtom (h.size.symm ▸ hmalloc) with ⟨atom, x, l', hnew, h', _⟩ | hnone
  · have hpairs' := (List.perm_middle.pairwise_iff fun h => h.symm).mp h'.apart
    have hatom := (List.pairwise_cons.mp hpairs').1
    exact Or.inl ⟨atom, x, l', hnew,
      h'.inBlock atom (List.mem_append_right l' List.mem_cons_self), h'.chain,
      fun a ha => hatom a (List.mem_append_left _ ha),
      fun b hb => hatom b (List.mem_append_right _ hb)⟩
  · exact Or.inr hnone

theorem Steady.call (h : Steady size s l) (hmalloc : MallocSound malloc size)
    (hallows : s.Allows c) : (∃ s' l', s.call malloc c = .ok s' ∧ Steady size s' l') ∨
      s.call malloc c = .error .noMemory := by
  cases c with
  | newAtom =>
      rcases h.kept.newAtom (h.size.symm ▸ hmalloc) with
        ⟨atom, x, l', hnew, h', hsize⟩ | ⟨hnone, _⟩
      · refine Or.inl ⟨⟨x, atom :: s.inUse⟩, l', ?_, h', hsize.trans h.size⟩
        unfold Usage.call
        dsimp only
        rw [hnew]
      · refine Or.inr ?_
        unfold Usage.call
        dsimp only
        rw [hnone]
  | saveAtom atom =>
      exact Or.inl ⟨_, _, rfl, h.kept.save hallows, h.size⟩
  | write a v =>
      obtain ⟨atom, hatom, hin⟩ := hallows
      exact Or.inl ⟨_, _, rfl, h.kept.write hatom v hin, h.size⟩

theorem Steady.run {calls : List Call} (h : Steady size s l) (hmalloc : MallocSound malloc size)
    (hallows : Usage.AllowsAll malloc calls s) :
    (∃ s' l', s.run malloc calls = .ok s' ∧ Steady size s' l') ∨
      s.run malloc calls = .error .noMemory := by
  induction calls generalizing s l with
  | nil => exact Or.inl ⟨s, l, rfl, h⟩
  | cons c calls ih =>
      unfold Usage.run
      rcases h.call hmalloc hallows.1 with ⟨s₁, l₁, hcall, h₁⟩ | hnone
      · rw [hcall]
        exact ih h₁ (hallows.2 s₁ hcall)
      · rw [hnone]
        exact Or.inr rfl

end Runs

/-- In every run in which only atoms in use are given back, and written to, each state that is
reached has a freelist that ends, of atoms of the blocks, apart from each other and from the atoms
in use; and the next atom is one of these, or there is no memory for it. -/
theorem fastalloc_sound (malloc : Malloc) (size elements : Nat) (mem : Memory)
    (helements : 1 ≤ elements) (hfits : elements * max size sizeofFastalloc < 2 ^ 31)
    (hmalloc : MallocSound malloc (elements * max size sizeofFastalloc)) (calls : List Call)
    (hallows : Usage.AllowsAll malloc calls ⟨new size elements mem, []⟩) :
    (∃ s, Usage.run malloc calls ⟨new size elements mem, []⟩ = .ok s ∧ s.SoundAlloc malloc) ∨
      Usage.run malloc calls ⟨new size elements mem, []⟩ = .error .noMemory := by
  have hnew : Steady (elements * max size sizeofFastalloc) ⟨new size elements mem, []⟩ [] :=
    ⟨kept_new mem helements hfits, congrArg (elements * ·) (atomSize_new size elements mem)⟩
  rcases hnew.run hmalloc hallows with ⟨s, l, hrun, h⟩ | hnone
  · exact Or.inl ⟨s, hrun, h.sound hmalloc⟩
  · exact Or.inr hnone

/-- There is one block of 32 bytes. -/
def oneBlock (blocks : List Nat) (_ : Nat) : Option Nat :=
  match blocks with
  | [] => some 4096
  | _ => none

theorem mallocSound_oneBlock : MallocSound oneBlock 32 := by
  intro blocks block h
  cases blocks with
  | nil =>
      obtain rfl := Option.some.inj h
      exact ⟨by decide, by decide, fun b hb => absurd hb List.not_mem_nil⟩
  | cons _ _ => cases h

/-- Both atoms of a block, the first one given back. -/
theorem fastalloc_sound_twoAtoms :
    (∃ s, Usage.run oneBlock [.newAtom, .newAtom, .saveAtom 4096]
        ⟨new 16 2 fun _ => 0, []⟩ = .ok s ∧ s.SoundAlloc oneBlock) ∨
      Usage.run oneBlock [.newAtom, .newAtom, .saveAtom 4096] ⟨new 16 2 fun _ => 0, []⟩ =
        .error .noMemory := by
  refine fastalloc_sound oneBlock 16 2 (fun _ => 0) (by decide) (by decide) mallocSound_oneBlock
    [.newAtom, .newAtom, .saveAtom 4096] ⟨trivial, fun s hs => ⟨trivial, fun s' hs' => ⟨?_, ?_⟩⟩⟩
  · cases hs
    cases hs'
    exact List.mem_cons_of_mem _ List.mem_cons_self
  · exact fun _ _ => trivial

end Fastalloc

end PureDataPacket
